import SlotLisp.Error
import SlotLisp.Text.Quoted
import SlotLisp.Value.Basic

/-!
# Values as text

`Value.text` is the written form that the reader reads. Strings stand in it as they are, without
escapes, as the reader takes them. `Value.inspect` shows how a value is built, constructor by
constructor, with its strings and characters quoted.
-/

namespace SlotLisp.Value

/-- The characters that have a name. -/
def charName? (c : Char) : Option String :=
  if c = '\n' then some "newline"
  else if c = '\t' then some "tab"
  else if c = ' ' then some "space"
  else none

def charText (c : Char) : String := "#\\" ++ (charName? c).getD (String.singleton c)

/-- The written form of anything but a pair. -/
def atomText : Value → String
  | nil => "()"
  | bool b => if b then "#t" else "#f"
  | int n => Integer.text n
  | float x => String.ofList (Double.text x)
  | char c => charText c
  | string s => "\"" ++ s ++ "\""
  | symbol name => name
  | pair .. => ""
  | closure .. => "#<closure>"
  | native f => "#<native-fn:" ++ f.id ++ ">"

mutual

/-- The written form, put behind `out`. -/
def write (out : String) : Value → String
  | pair _ a d => writeRest (write (out.push '(') a) d
  | v => out ++ v.atomText

/-- The part of a list behind an element. -/
def writeRest (out : String) : Value → String
  | nil => out.push ')'
  | pair _ a d => writeRest (write (out.push ' ') a) d
  | v => (out ++ " . " ++ v.atomText).push ')'

end

def text (v : Value) : String := v.write ""

/-- Puts the construction of a value behind `out`, and behind it as many closing brackets. -/
def writeInspect (out : String) (brackets : Nat) : Value → String
  | pair _ a d => writeInspect (writeInspect (out ++ "Pair(") 0 a ++ ", ") (brackets + 1) d
  | v =>
    let out := match v with
      | nil => out ++ "Nil"
      | bool b => out ++ "Bool(" ++ (if b then "true" else "false") ++ ")"
      | int n => out ++ "Int(" ++ Integer.text n ++ ")"
      | float x => out ++ "Float(" ++ String.ofList (Double.inspect x) ++ ")"
      | char c => out ++ "Char(" ++ Text.quotedChar c ++ ")"
      | string s => out ++ "String(" ++ Text.quotedString s ++ ")"
      | symbol name => out ++ "Symbol(" ++ name ++ ")"
      | pair .. => out
      | closure _ params body _ =>
        writeInspect (writeInspect (out ++ "Closure(params=") 0 params ++ ", body=") 1 body
      | native f => out ++ "NativeFn(" ++ f.id ++ ")"
    brackets.fold (fun _ _ out => out.push ')') out

def inspect (v : Value) : String := v.writeInspect "" 0

end SlotLisp.Value

namespace SlotLisp.Error

/-- The error as it leaves the combination `form`. -/
def within (e : Error) (form : Value) : Error :=
  if e.awaitsContext then { e with context? := some form.text } else e

end SlotLisp.Error
