import Caret.Text.Utf8
import Mathlib.Data.String.Basic

-- Cutting a text at byte offsets is cutting the list of its characters, on the fast path for ASCII
-- texts as well as on the slow one.
namespace Caret

open String

variable {text : String} {p d q : List Char} {isAscii : Bool}

theorem bytesBefore?_append (p q : List Char) :
    bytesBefore? (p ++ q) p.length = some (utf8Len p) := by
  induction p
  case nil => cases q <;> rfl
  case cons c p hi => simp [bytesBefore?, hi, Nat.add_comm]

theorem bytesBefore?_eq_none {cs : List Char} {i : Nat} (h : cs.length < i) :
    bytesBefore? cs i = none := by
  induction cs generalizing i
  case nil =>
    obtain ⟨i, rfl⟩ := Nat.exists_eq_succ_of_ne_zero (Nat.ne_zero_of_lt h)
    rfl
  case cons c cs hi =>
    obtain ⟨i, rfl⟩ := Nat.exists_eq_succ_of_ne_zero (Nat.ne_zero_of_lt h)
    simp [bytesBefore?, hi (Nat.lt_of_succ_lt_succ h)]

theorem utf8Size_of_ascii {c : Char} (h : c.val < 128) : c.utf8Size = 1 := by
  have hc : c.val ≤ 127 := by
    rw [UInt32.lt_iff_toNat_lt] at h
    rw [UInt32.le_iff_toNat_le]
    exact Nat.le_of_lt_succ h
  simp [Char.utf8Size, hc]

theorem utf8Len_of_ascii {cs : List Char} (h : cs.all (·.val < 128)) : utf8Len cs = cs.length := by
  induction cs
  case nil => rfl
  case cons c cs hi =>
    simp only [List.all_cons, Bool.and_eq_true, decide_eq_true_eq] at h
    simp [hi h.right, utf8Size_of_ascii h.left]

theorem utf8ByteSize_eq (text : String) : text.utf8ByteSize = utf8Len text.toList := by
  rw [← utf8ByteSize_ofList, String.ofList_toList]

-- A byte offset between two characters cuts the characters in two.
theorem isValid_iff_exists_parts {offset : Nat} :
    Pos.Raw.IsValid text ⟨offset⟩ ↔ ∃ p q, text.toList = p ++ q ∧ offset = utf8Len p := by
  rw [Pos.Raw.isValid_iff_exists_append]
  constructor
  case mp =>
    rintro ⟨s₁, s₂, he, ho⟩
    refine ⟨s₁.toList, s₂.toList, by rw [he, toList_append], ?_⟩
    rw [← utf8ByteSize_eq]
    exact congrArg Pos.Raw.byteIdx ho
  case mpr =>
    rintro ⟨p, q, he, ho⟩
    exact ⟨.ofList p, .ofList q, by simp [← toList_inj, he], by simp [ho]⟩

-- Of two front parts of a text, the one with fewer bytes is a front part of the other.
theorem prefix_of_utf8Len_le {p' cs : List Char} (hp : p <+: cs) (hp' : p' <+: cs)
    (hle : utf8Len p ≤ utf8Len p') : p <+: p' := by
  rcases List.prefix_or_prefix_of_prefix hp hp' with h | ⟨d, rfl⟩
  · exact h
  · have hd : utf8Len d = 0 := by
      rw [utf8Len_append] at hle
      omega
    simp [utf8Len_eq_zero.mp hd]

theorem eq_of_utf8Len_eq {p' cs : List Char} (hp : p <+: cs) (hp' : p' <+: cs)
    (he : utf8Len p = utf8Len p') : p = p' := by
  obtain ⟨d, rfl⟩ := prefix_of_utf8Len_le hp hp' (Nat.le_of_eq he)
  have hd : utf8Len d = 0 := by
    rw [utf8Len_append] at he
    omega
  simp [utf8Len_eq_zero.mp hd]

-- The index of a character is turned into its byte offset.
theorem byteOffset?_eq (ht : text.toList = p ++ q) (ha : isAscii → isAsciiText text) :
    byteOffset? text isAscii p.length = some (utf8Len p) := by
  cases isAscii
  case false => simp [byteOffset?, ht, bytesBefore?_append]
  case true =>
    have hall : (p ++ q).all (·.val < 128) := ht ▸ ha rfl
    have hp : utf8Len p = p.length :=
      utf8Len_of_ascii (List.all_append ▸ hall |> Bool.and_eq_true_iff.mp |>.left)
    have hle : p.length ≤ text.utf8ByteSize := by
      rw [utf8ByteSize_eq, ht, utf8Len_of_ascii hall]
      simp
    simp [byteOffset?, hle, hp]

theorem byteOffset?_eq_none {i : Nat} (hi : text.toList.length < i)
    (ha : isAscii → isAsciiText text) : byteOffset? text isAscii i = none := by
  cases isAscii
  case false => simp [byteOffset?, bytesBefore?_eq_none hi]
  case true =>
    have hlt : ¬i ≤ text.utf8ByteSize := by
      rw [utf8ByteSize_eq, utf8Len_of_ascii (ha rfl)]
      omega
    simp [byteOffset?, hlt]

-- In an ASCII text a byte offset counts the characters before it.
theorem utf8GetAux?_of_ascii {cs : List Char} (h : cs.all (·.val < 128)) (start i : Nat) :
    Pos.Raw.utf8GetAux? cs ⟨start⟩ ⟨start + i⟩ = cs[i]? := by
  induction cs generalizing start i
  case nil => rfl
  case cons c cs hi =>
    simp only [List.all_cons, Bool.and_eq_true, decide_eq_true_eq] at h
    cases i
    case zero   => simp [Pos.Raw.utf8GetAux?]
    case succ i =>
      have hsize : (⟨start⟩ : Pos.Raw) + c = ⟨start + 1⟩ := by
        simp [Pos.Raw.ext_iff, utf8Size_of_ascii h.left]
      have hne : (⟨start⟩ : Pos.Raw) ≠ ⟨start + (i + 1)⟩ := by simp [Pos.Raw.ext_iff]
      rw [Pos.Raw.utf8GetAux?, if_neg hne, hsize, List.getElem?_cons_succ,
        ← hi h.right (start + 1) i]
      congr 2
      omega

theorem charAt?_eq (ha : isAscii → isAsciiText text) (i : Nat) :
    charAt? text isAscii i = text.toList[i]? := by
  cases isAscii
  case false => rfl
  case true  =>
    have hget := utf8GetAux?_of_ascii (ha rfl) 0 i
    rwa [Nat.zero_add] at hget

theorem sliceBytes_eq (ht : text.toList = p ++ (d ++ q)) :
    (sliceBytes text (utf8Len p) (utf8Len p + utf8Len d)).toList = d := by
  have hs : text = .ofList (p ++ d ++ q) := by simp [← String.toList_inj, ht]
  rw [sliceBytes, hs, extract_of_valid, String.toList_ofList]

theorem spliceBytes_eq (ht : text.toList = p ++ (d ++ q)) (inserted : String) :
    (spliceBytes text (utf8Len p) (utf8Len p + utf8Len d) inserted).toList =
      p ++ (inserted.toList ++ q) := by
  have hp : (sliceBytes text 0 (utf8Len p)).toList = p := by
    simpa using sliceBytes_eq (p := []) (d := p) (q := d ++ q) ht
  have hq : (sliceBytes text (utf8Len p + utf8Len d) text.utf8ByteSize).toList = q := by
    have hs := sliceBytes_eq (p := p ++ d) (d := q) (q := []) (by simpa using ht)
    simpa [utf8ByteSize_eq, ht, Nat.add_assoc] using hs
  rw [spliceBytes, String.toList_append, String.toList_append, hp, hq, List.append_assoc]

end Caret
