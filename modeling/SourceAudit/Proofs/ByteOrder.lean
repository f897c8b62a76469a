/-
  SourceAudit/Proofs/ByteOrder.lean
  =================================
  **Texts as bytes, and their order.**

  The bytes of a text are those of its characters (`utf8_eq`).  The first byte of a character
  tells how many bytes it has, more bytes stand for larger characters, and the bytes of one
  number of them grow with the character (`utf8EncodeChar_lt`).  So the order of texts by
  characters is that of their bytes (`utf8_lt_iff`).
-/
import SourceAudit.IgnoreFiles
import Mathlib.Data.String.Basic

namespace SourceAudit

/-! ### Bytes of a text -/

theorem toList_loop (bytes : ByteArray) (i : Nat) (front : List UInt8) :
    ByteArray.toList.loop bytes i front = front.reverse ++ bytes.data.toList.drop i := by
  fun_induction ByteArray.toList.loop bytes i front with
  | case1 i front hi ih =>
    have hi : i < bytes.data.toList.length := hi
    have hnext : bytes.get! i = bytes.data.toList[i] := by
      rw [Array.getElem_toList]
      exact getElem!_pos bytes.data i hi
    rw [ih, List.drop_eq_getElem_cons hi, List.reverse_cons, hnext, List.append_assoc,
      List.singleton_append]
  | case2 i front hi =>
    have hi : bytes.data.toList.length ≤ i := Nat.le_of_not_lt hi
    rw [List.drop_eq_nil_of_le hi, List.append_nil]

theorem utf8_eq (s : String) : utf8 s = s.toList.flatMap String.utf8EncodeChar := by
  have hbytes : s.toUTF8 = (s.toList.flatMap String.utf8EncodeChar).toByteArray :=
    String.utf8Encode_toList.symm
  rw [utf8, ByteArray.toList, toList_loop, hbytes]
  simp

theorem utf8_append (s t : String) : utf8 (s ++ t) = utf8 s ++ utf8 t := by
  rw [utf8_eq, utf8_eq, utf8_eq, String.toList_append, List.flatMap_append]

theorem utf8EncodeChar_ne_nil (c : Char) : String.utf8EncodeChar c ≠ [] := by
  rw [← List.length_pos_iff, String.length_utf8EncodeChar]
  exact c.utf8Size_pos

/-! ### Their order -/

theorem ofNat_cons_lt_iff {n m : Nat} (hn : n < 256) (hm : m < 256) {s t : List UInt8} :
    UInt8.ofNat n :: s < UInt8.ofNat m :: t ↔ n < m ∨ n = m ∧ s < t := by
  rw [List.cons_lt_cons_iff, UInt8.lt_iff_toNat_lt, ← UInt8.toNat_inj, UInt8.toNat_ofNat',
    UInt8.toNat_ofNat', Nat.mod_eq_of_lt hn, Nat.mod_eq_of_lt hm]

/-- Numbers are ordered like their digits. -/
theorem lt_digits {n m : Nat} (h : n < m) (base : Nat) :
    n / base < m / base ∨ n / base = m / base ∧ n % base < m % base := by
  rcases Nat.lt_or_eq_of_le (Nat.div_le_div_right (c := base) (Nat.le_of_lt h)) with hlt | heq
  · exact .inl hlt
  · have hn := Nat.div_add_mod n base
    have hm := Nat.div_add_mod m base
    rw [heq] at hn
    exact .inr ⟨heq, by omega⟩

/-- The bytes of a character are before those of a larger one, whatever follows them. -/
theorem utf8EncodeChar_lt {c d : Char} (hcd : c < d) (s t : List UInt8) :
    String.utf8EncodeChar c ++ s < String.utf8EncodeChar d ++ t := by
  have hvalue : c.val.toNat < d.val.toNat := hcd
  have hbound : d.val.toNat < 0x110000 := by
    rcases d.valid with h | h
    · exact Nat.lt_trans h (by decide)
    · exact h.2
  unfold String.utf8EncodeChar
  dsimp only
  generalize c.val.toNat = n at hvalue
  generalize d.val.toNat = m at hvalue hbound
  have hhigh (k : Nat) : k / 4096 = k / 64 / 64 ∧ k / 262144 = k / 64 / 64 / 64 := by
    rw [Nat.div_div_eq_div_mul, Nat.div_div_eq_div_mul]
    exact ⟨rfl, rfl⟩
  have hlast := lt_digits hvalue 64
  rw [(hhigh n).1, (hhigh n).2, (hhigh m).1, (hhigh m).2]
  split_ifs <;> simp (disch := omega) only [List.cons_append, ofNat_cons_lt_iff] <;> omega

theorem flatMap_utf8EncodeChar_lt {s t : List Char} (hst : s < t) :
    s.flatMap String.utf8EncodeChar < t.flatMap String.utf8EncodeChar := by
  induction s generalizing t with
  | nil =>
    cases t with
    | nil => exact absurd hst (List.lt_irrefl [])
    | cons d t =>
      obtain ⟨byte, bytes, hbytes⟩ := List.exists_cons_of_ne_nil (utf8EncodeChar_ne_nil d)
      rw [List.flatMap_cons, hbytes]
      exact List.nil_lt_cons _ _
  | cons c s ih =>
    cases t with
    | nil => exact absurd hst (List.not_lt_nil _)
    | cons d t =>
      rw [List.flatMap_cons, List.flatMap_cons]
      rcases List.cons_lt_cons_iff.mp hst with hcd | ⟨rfl, hrest⟩
      · exact utf8EncodeChar_lt hcd _ _
      · exact List.append_left_lt (ih hrest)

/-- **Order.**  Texts are ordered like their bytes. -/
theorem utf8_lt_iff {s t : String} : utf8 s < utf8 t ↔ s < t := by
  have hmono {s t : String} (hst : s < t) : utf8 s < utf8 t := by
    rw [utf8_eq, utf8_eq]
    exact flatMap_utf8EncodeChar_lt (String.lt_iff_toList_lt.mp hst)
  refine ⟨fun hbytes => Decidable.byContradiction fun hnot => ?_, hmono⟩
  by_cases hts : t < s
  · exact List.lt_asymm hbytes (hmono hts)
  · obtain rfl := String.le_antisymm (String.not_lt.mp hts) (String.not_lt.mp hnot)
    exact List.lt_irrefl _ hbytes

end SourceAudit
