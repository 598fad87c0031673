import PlanningGame.Text.Invisible

/-!
# Quoted text and listings

Two ways to write a name so that it stays on one line, and the brackets around lists and sets. In
a *quotation* characters above ASCII are shown as they are when they have a visible form; in a
*label* everything above ASCII is shown by its number.
-/
namespace PlanningGame.Text

/-- A character by its number, in hexadecimal digits between braces. -/
def byNumber (c : Char) : String :=
  "\\u\x7b" ++ String.ofList (Nat.toDigits 16 c.toNat) ++ "\x7d"

/-- A character inside a quotation. The single quote stands for itself. -/
def quotedChar (c : Char) : String :=
  match c with
  | '\x00' => "\\0"
  | '\t' => "\\t"
  | '\n' => "\\n"
  | '\r' => "\\r"
  | '\x22' => "\\\""
  | '\x5c' => "\\\\"
  | _ => if c.toNat < 0x20 || isInvisible c then byNumber c else c.toString

/-- A text between double quotes. -/
def quote (s : String) : String :=
  "\"" ++ String.join (s.toList.map quotedChar) ++ "\""

/-- A character inside a label: printable ASCII is kept, quotes of both kinds are escaped. -/
def labelChar (c : Char) : String :=
  match c with
  | '\t' => "\\t"
  | '\n' => "\\n"
  | '\r' => "\\r"
  | '\x22' => "\\\""
  | '\x27' => "\\'"
  | '\x5c' => "\\\\"
  | _ => if 0x20 ≤ c.toNat && c.toNat ≤ 0x7e then c.toString else byNumber c

/-- A text as the label of a drawn node. -/
def label (s : String) : String :=
  String.join (s.toList.map labelChar)

/-- Items between square brackets. -/
def bracketed (items : List String) : String :=
  "[" ++ ", ".intercalate items ++ "]"

/-- Items between braces. -/
def braced (items : List String) : String :=
  "\x7b" ++ ", ".intercalate items ++ "\x7d"

/-- Names in quotation, between square brackets. -/
def quotedList (names : List String) : String :=
  bracketed (names.map quote)

/-- A record on one line: its name, then its fields between braces. -/
def record (name : String) (fields : List (String × String)) : String :=
  name ++ " \x7b " ++ ", ".intercalate (fields.map fun (key, value) => key ++ ": " ++ value)
    ++ " \x7d"

end PlanningGame.Text
