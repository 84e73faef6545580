import Mathlib.Tactic.ByContra
import Mathlib.Tactic.SplitIfs

/-!
# The order of texts is that of their bytes

Texts are compared character by character. UTF-8 gives a greater character greater bytes: more of
them, and then a greater first one, or as many, which are its digits in base 64. So the bytes of two
texts compare as the texts do (`utf8Bytes_lt_iff`).
-/

namespace SlotLisp

/-- The bytes of a text in UTF-8. -/
def utf8Bytes (s : String) : List UInt8 := s.toByteArray.data.toList

theorem utf8Bytes_eq_flatMap (s : String) :
    utf8Bytes s = s.toList.flatMap String.utf8EncodeChar := by
  rw [utf8Bytes, ← String.utf8Encode_toList, List.utf8Encode, List.toList_data_toByteArray]

/-- One number is below another when it has fewer `k`s, or as many and a smaller rest. -/
theorem div_lt_or_mod_lt {m n : Nat} (k : Nat) (h : m < n) :
    m / k < n / k ∨ m / k = n / k ∧ m % k < n % k := by
  obtain hlt | heq := Nat.lt_or_eq_of_le (Nat.div_le_div_right (Nat.le_of_lt h) : m / k ≤ n / k)
  · exact .inl hlt
  · refine .inr ⟨heq, ?_⟩
    have hm := Nat.div_add_mod m k
    have hn := Nat.div_add_mod n k
    rw [heq] at hm
    omega

/-- The digits in base 64, of which the first may be any number, decide from the first one on. -/
theorem digits_lt {m n : Nat} (h : m < n) :
    m / 262144 < n / 262144 ∨ m / 262144 = n / 262144 ∧
      (m / 4096 % 64 < n / 4096 % 64 ∨ m / 4096 % 64 = n / 4096 % 64 ∧
        (m / 64 % 64 < n / 64 % 64 ∨ m / 64 % 64 = n / 64 % 64 ∧ m % 64 < n % 64)) := by
  have hdigits (n : Nat) : n / 64 / 64 = n / 4096 ∧ n / 4096 / 64 = n / 262144 :=
    ⟨Nat.div_div_eq_div_mul n 64 64, Nat.div_div_eq_div_mul n 4096 64⟩
  have hm := hdigits m
  have hn := hdigits n
  obtain h | h := div_lt_or_mod_lt 64 h
  · obtain h | h := div_lt_or_mod_lt 64 h
    · obtain h | h := div_lt_or_mod_lt 64 h <;> omega
    · omega
  · omega

/-- The bytes of a greater character are greater, whatever bytes come after either. -/
theorem utf8EncodeChar_append_lt {c d : Char} (h : c < d) (s t : List UInt8) :
    String.utf8EncodeChar c ++ s < String.utf8EncodeChar d ++ t := by
  have hlt : c.val.toNat < d.val.toNat := h
  have hmax : d.val.toNat ≤ 0x10ffff := by
    obtain hd | ⟨-, hd⟩ := d.valid <;> omega
  have hdigits := digits_lt hlt
  have hbyte {n : Nat} (hn : n < 256) : (UInt8.ofNat n).toNat = n := UInt8.toNat_ofNat_of_lt' hn
  simp only [String.utf8EncodeChar]
  -- One case for each two lengths. All bytes are known as numbers below 256, and either the first
  -- ones differ or they are the digits with the same offsets.
  split_ifs <;>
    simp (disch := omega) only [List.cons_append, List.nil_append, List.cons_lt_cons_iff,
      UInt8.lt_iff_toNat_lt, ← UInt8.toNat_inj, hbyte, Nat.mod_eq_of_lt] <;>
    omega

theorem flatMap_utf8EncodeChar_lt {cs ds : List Char} (h : cs < ds) :
    cs.flatMap String.utf8EncodeChar < ds.flatMap String.utf8EncodeChar := by
  induction (h : List.Lex (· < ·) cs ds) with
  | @nil d ds =>
    obtain ⟨byte, bytes, hbytes⟩ := List.exists_cons_of_ne_nil (@String.utf8EncodeChar_ne_nil d)
    rw [List.flatMap_cons, hbytes]
    exact List.nil_lt_cons byte _
  | rel hlt => exact utf8EncodeChar_append_lt hlt _ _
  | cons _ ih => exact List.append_left_lt ih

theorem utf8Bytes_lt {a b : String} (h : a < b) : utf8Bytes a < utf8Bytes b := by
  rw [utf8Bytes_eq_flatMap, utf8Bytes_eq_flatMap]
  exact flatMap_utf8EncodeChar_lt (String.lt_iff.1 h)

theorem utf8Bytes_lt_iff {a b : String} : utf8Bytes a < utf8Bytes b ↔ a < b := by
  refine ⟨fun h => ?_, utf8Bytes_lt⟩
  by_contra hnot
  have hlt : b < a := by
    refine Std.lt_of_le_of_ne (String.not_lt.1 hnot) ?_
    rintro rfl
    exact List.lt_irrefl _ h
  exact List.lt_asymm h (utf8Bytes_lt hlt)

end SlotLisp
