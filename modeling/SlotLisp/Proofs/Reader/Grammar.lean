import SlotLisp.Reader

/-!
# The grammar of the written form

`Datum comments h t rest v` says that the text `t`, with `rest` behind it, is a datum denoting `v`
whose deepest part stands at depth `h`. What follows matters because atoms end where their longest
run of characters ends. The rules mention no reader; `SlotLisp.Proofs.Reader.Acceptance` shows that
reading accepts exactly what they derive.
-/

namespace SlotLisp.Reader

/-! ## Trivia -/

/-- Blanks and comments in front of `rest`. A comment ends before the next line feed or with the
text. -/
inductive Trivia (comments : Bool) : List Char → List Char → Prop
  | none (rest : List Char) : Trivia comments [] rest
  | blank {c : Char} {w rest : List Char} (isBlank : Text.isBlank c = true)
      (more : Trivia comments w rest) : Trivia comments (c :: w) rest
  | comment {body w rest : List Char} (enabled : comments = true) (inLine : '\n' ∉ body)
      (ends : ∀ c ∈ (w ++ rest).head?, c = '\n') (more : Trivia comments w rest) :
      Trivia comments (';' :: body ++ w) rest

/-- Trivia that no other split of the same text could make longer. -/
structure LeadingTrivia (comments : Bool) (w rest : List Char) : Prop where
  trivia : Trivia comments w rest
  longest : ∀ w' rest', w' ++ rest' = w ++ rest → Trivia comments w' rest' → w'.length ≤ w.length

/-! ## Atoms -/

/-- `run` holds characters of one class only, and what follows begins with none of them. -/
structure LongestRun (inClass : Char → Bool) (run rest : List Char) : Prop where
  all : ∀ c ∈ run, inClass c = true
  stops : ∀ c ∈ rest.head?, inClass c = false

inductive Atom : (text rest : List Char) → Value → Prop
  | namedCharacter {name : List Char} {c : Char} (rest : List Char)
      (named : (name, c) ∈ namedCharacters) : Atom ('#' :: '\\' :: name) rest (.char c)
  | character {c : Char} {rest : List Char}
      (unnamed : ∀ entry ∈ namedCharacters, ¬ entry.1 <+: c :: rest) :
      Atom ['#', '\\', c] rest (.char c)
  | boolTrue (rest : List Char) : Atom ['#', 't'] rest (.bool true)
  | boolFalse (rest : List Char) : Atom ['#', 'f'] rest (.bool false)
  | string {body : List Char} (rest : List Char) (unquoted : '"' ∉ body) :
      Atom ('"' :: body ++ ['"']) rest (.string (String.ofList body))
  | float {whole fraction rest : List Char} (hwhole : whole ≠ []) (hfraction : fraction ≠ [])
      (wholeRun : LongestRun Char.isDigit whole ('.' :: fraction ++ rest))
      (fractionRun : LongestRun Char.isDigit fraction rest) :
      Atom (whole ++ '.' :: fraction) rest
        (.float (Double.ofDecimal false (Nat.ofDigitChars 10 (whole ++ fraction) 0)
          (-fraction.length)))
  | integer {digits rest : List Char} {n : Int64} (nonempty : digits ≠ [])
      (run : LongestRun Char.isDigit digits rest) (noPoint : '.' ∉ rest.head?)
      (value : n.toInt = Nat.ofDigitChars 10 digits 0) : Atom digits rest (.int n)
  | symbol {name rest : List Char} (run : LongestRun isSymbolChar name rest)
      (isName : isSymbolName name = true) : Atom name rest (.symbol (String.ofList name))

/-! ## Data -/

/-- Whether a text ends in a character behind which no delimiter is needed. -/
def endsClosed (t : List Char) : Bool := t.getLast?.any closesItself

/-- Whether a text begins with a character in front of which no delimiter is needed. -/
def startsOpen (t : List Char) : Bool := t.head?.any opensItself

mutual

inductive Datum (comments : Bool) :
    (depth : Nat) → (text rest : List Char) → Value → Prop
  | atom {t rest : List Char} {v : Value} (h : Atom t rest v) : Datum comments 0 t rest v
  | quote {depth : Nat} {w t rest : List Char} {v : Value} (trivia : Trivia comments w (t ++ rest))
      (quoted : Datum comments depth t rest v) :
      Datum comments (depth + 1) ('\'' :: w ++ t) rest (Value.ofList [.symbol "quote", v])
  | empty {w rest : List Char} (trivia : Trivia comments w (')' :: rest)) :
      Datum comments 0 ('(' :: w ++ [')']) rest .nil
  | list {depth depth' : Nat} {w t u rest : List Char} {v tail : Value} {vs : List Value}
      (trivia : Trivia comments w (t ++ u ++ rest)) (first : Datum comments depth t (u ++ rest) v)
      (others : Following comments (endsClosed t) depth' u rest vs tail) :
      Datum comments (max depth depth' + 1) ('(' :: w ++ t ++ u) rest
        (Value.ofListTail (v :: vs) tail)

/-- What may stand behind an element of a list: the elements after it, the tail and the closing
bracket. The flag says that the element needs no delimiter behind it. -/
inductive Following (comments : Bool) :
    (closed : Bool) → (depth : Nat) → (text rest : List Char) → List Value → (tail : Value) → Prop
  | close {closed : Bool} {w rest : List Char} (trivia : Trivia comments w (')' :: rest)) :
      Following comments closed 0 (w ++ [')']) rest [] .nil
  | dotted {closed : Bool} {depth : Nat} {w w' t w'' rest : List Char} {tail : Value}
      (trivia : Trivia comments w ('.' :: w' ++ t ++ w'' ++ ')' :: rest))
      (delimited : w ≠ [] ∨ closed = true) (trivia' : Trivia comments w' (t ++ w'' ++ ')' :: rest))
      (last : Datum comments depth t (w'' ++ ')' :: rest) tail)
      (trivia'' : Trivia comments w'' (')' :: rest)) :
      Following comments closed depth (w ++ '.' :: w' ++ t ++ w'' ++ [')']) rest [] tail
  | element {closed : Bool} {depth depth' : Nat} {w t u rest : List Char} {v tail : Value}
      {vs : List Value} (trivia : Trivia comments w (t ++ u ++ rest))
      (delimited : w ≠ [] ∨ closed = true ∨ startsOpen t = true)
      (next : Datum comments depth t (u ++ rest) v)
      (others : Following comments (endsClosed t) depth' u rest vs tail) :
      Following comments closed (max depth depth') (w ++ t ++ u) rest (v :: vs) tail

end

end SlotLisp.Reader
