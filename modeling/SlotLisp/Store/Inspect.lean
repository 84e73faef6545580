import SlotLisp.Store
import SlotLisp.Text.Quoted

/-!
# Environments as text

An environment is shown as the names that each scope on its chain binds, the innermost first.
Values are left out: a closure may have captured the very scope that binds it.
-/

namespace SlotLisp.Store

def inspectScope (names : List String) (parent? : Option String) : String :=
  "Environment \x7b bindings: [" ++ ", ".intercalate (names.map Text.quotedString) ++
    "], parent: " ++ (match parent? with
    | some parent => "Some(" ++ parent ++ ")"
    | none => "None") ++ " \x7d"

/-- The text of the environment that a scope stands for. -/
def inspect (st : Store) (scope : ScopeId) : String :=
  ((st.chain scope).foldr
    (fun s outer => some (inspectScope (st.bindingsOf s).names outer)) none).getD ""

end SlotLisp.Store
