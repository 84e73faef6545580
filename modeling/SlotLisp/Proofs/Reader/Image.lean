import SlotLisp.Proofs.Reader.Grammar
import SlotLisp.Proofs.Value.Readable

/-!
# What data denote

A datum denotes lists and atoms that have a literal, all of them outside any store, and no more
levels of lists than the datum itself has of nesting.
-/

namespace SlotLisp.Reader

variable {comments : Bool}

/-- What a datum whose deepest part stands at depth `n` may denote. -/
structure Denotable (n : Nat) (v : Value) : Prop where
  spelled : v.Spelled
  unmarked : v.Unmarked
  nesting_le : v.nesting ≤ n

theorem Denotable.mono {m n : Nat} {v : Value} (h : Denotable m v) (hmn : m ≤ n) :
    Denotable n v :=
  ⟨h.spelled, h.unmarked, h.nesting_le.trans hmn⟩

theorem Denotable.cons {n : Nat} {v tail : Value} (hv : Denotable n v)
    (htail : Denotable (n + 1) tail) : Denotable (n + 1) (Value.cons v tail) := by
  refine ⟨⟨hv.spelled, htail.spelled⟩, ⟨rfl, hv.unmarked, htail.unmarked⟩, ?_⟩
  have hfirst := hv.nesting_le
  have hrest := htail.nesting_le
  rw [Value.nesting]
  omega

theorem Denotable.ofListTail {n : Nat} {vs : List Value} {tail : Value}
    (hvs : ∀ v ∈ vs, Denotable n v) (htail : Denotable n tail) :
    Denotable (n + 1) (Value.ofListTail vs tail) := by
  induction vs with
  | nil => exact htail.mono (Nat.le_succ n)
  | cons v vs ih =>
    rw [List.forall_mem_cons] at hvs
    rw [Value.ofListTail_cons]
    exact hvs.1.cons (ih hvs.2)

theorem Atom.denotable {t rest : List Char} {v : Value} (h : Atom t rest v) : Denotable 0 v := by
  cases h with
  | @string body _ unquoted =>
    have hbody : '"' ∉ (String.ofList body).toList := by rwa [String.toList_ofList]
    exact ⟨hbody, trivial, le_rfl⟩
  | @integer _ _ n _ _ _ value =>
    have hn : 0 ≤ n.toInt := by
      rw [value]
      exact Int.natCast_nonneg _
    exact ⟨hn, trivial, le_rfl⟩
  | symbol run isName =>
    have hname : IsName (String.ofList t).toList := by
      rw [String.toList_ofList]
      exact isName_iff.2 ⟨isName, run.all⟩
    exact ⟨hname, trivial, le_rfl⟩
  | _ => exact ⟨trivial, trivial, le_rfl⟩

/-- Every datum that nests less than `n` levels denotes what its depth admits. -/
def DenotesBelow (comments : Bool) (n : Nat) : Prop :=
  ∀ (depth : Nat) (t rest : List Char) (v : Value),
    Datum comments depth t rest v → depth < n → Denotable depth v

theorem DenotesBelow.following {n : Nat} (hdatum : DenotesBelow comments n) {closed : Bool}
    {depth : Nat} {u rest : List Char} {vs : List Value} {tail : Value}
    (h : Following comments closed depth u rest vs tail) (hdepth : depth < n) :
    (∀ v ∈ vs, Denotable depth v) ∧ Denotable depth tail := by
  induction vs generalizing closed depth u with
  | nil =>
    refine ⟨List.forall_mem_nil _, ?_⟩
    cases h with
    | close => exact ⟨trivial, trivial, le_rfl⟩
    | dotted _ _ _ last => exact hdatum _ _ _ _ last hdepth
  | cons v vs ih =>
    cases h with
    | @element _ depth depth' _ _ _ _ _ _ _ _ _ next others =>
      have hfirst := hdatum _ _ _ _ next (by omega)
      obtain ⟨hvs, htail⟩ := ih others (by omega)
      refine ⟨List.forall_mem_cons.2 ⟨hfirst.mono (by omega), ?_⟩, htail.mono (by omega)⟩
      exact fun w hw => (hvs w hw).mono (by omega)

theorem denotesBelow (n : Nat) : DenotesBelow comments n := by
  induction n with
  | zero => exact fun _ _ _ _ _ hn => absurd hn (Nat.not_lt_zero _)
  | succ n ih =>
    intro depth t rest v h hn
    cases h with
    | atom h => exact h.denotable
    | @quote depth _ _ _ v _ quoted =>
      have hv := ih _ _ _ _ quoted (by omega)
      have hname : IsName "quote".toList := by decide
      have hquote : Denotable depth (.symbol "quote") := ⟨hname, trivial, Nat.zero_le depth⟩
      have hnil : Denotable depth .nil := ⟨trivial, trivial, Nat.zero_le depth⟩
      refine Denotable.ofListTail (List.forall_mem_cons.2 ⟨hquote, ?_⟩) hnil
      exact List.forall_mem_singleton.2 hv
    | empty => exact ⟨trivial, trivial, le_rfl⟩
    | @list depth depth' _ _ _ _ v tail vs _ first others =>
      have hv := ih _ _ _ _ first (by omega)
      obtain ⟨hvs, htail⟩ := ih.following others (by omega)
      refine Denotable.ofListTail (List.forall_mem_cons.2 ⟨hv.mono (by omega), ?_⟩)
        (htail.mono (by omega))
      exact fun w hw => (hvs w hw).mono (by omega)

theorem Datum.denotable {depth : Nat} {t rest : List Char} {v : Value}
    (h : Datum comments depth t rest v) : Denotable depth v :=
  denotesBelow (depth + 1) depth t rest v h (Nat.lt_succ_self depth)

end SlotLisp.Reader
