import Caret.Proofs.Completion.Candidates
import Mathlib.Data.List.Induction

-- Tokens that are added one after the other. They are listed in the order in which they first come,
-- and that is all that the order decides: what a token forces is what all its additions agree on.
namespace Caret.Candidates

def addTokens (c : Candidates) (offers : List Offer) : Candidates :=
  offers.foldl (fun c offer => c.addToken offer.fst offer.snd) c

variable {c : Candidates} {offers offers' ts ts' : List Offer} {t : TokenType}
  {F L L' : List TokenType}

theorem addTokens_tokens : (c.addTokens offers).tokens = mergeAll offers c.tokens := by
  induction offers generalizing c
  case nil => rfl
  case cons offer offers hi => exact hi

theorem mergeAll_keys :
    (mergeAll offers []).map Prod.fst = (offers.map Prod.fst).eraseDups := by
  induction offers using List.reverseRecOn
  case nil => rfl
  case append_singleton offers offer hi =>
    have hlast : mergeAll (offers ++ [offer]) [] =
        mergeToken offer.fst offer.snd (mergeAll offers []) := by
      simp [mergeAll]
    rw [hlast, mergeToken_keys, hi, List.map_append, List.eraseDups_append]
    -- A type that has come before adds nothing.
    by_cases hm : offer.fst ∈ offers.map Prod.fst
    case pos => simp [List.removeAll, List.mem_eraseDups, hm]
    case neg => simp [List.removeAll, List.mem_eraseDups, List.eraseDups_cons, hm]

namespace Merged

theorem lookup_eq (h : Merged offers ts) (hm : (t, F) ∈ ts) : ts.lookup t = some F := by
  obtain ⟨before, after, rfl⟩ := List.append_of_mem hm
  have hk := h.keys
  rw [List.map_append, List.map_cons, List.nodup_middle, List.nodup_cons] at hk
  refine List.lookup_eq_some_iff.mpr ⟨before, after, rfl, fun offer ho => ?_⟩
  have hne : t ≠ offer.fst := by
    rintro rfl
    exact hk.left (List.mem_append_left _ (List.mem_map.mpr ⟨offer, ho, rfl⟩))
  simpa using hne

-- All additions of the token came with the same list.
theorem lookup_of_agreement (h : Merged offers ts) (hL : (t, L) ∈ offers)
    (hall : ∀ L', (t, L') ∈ offers → L' = L) : ts.lookup t = some L := by
  obtain ⟨F, hF⟩ := h.covers t L hL
  rw [h.lookup_eq hF, (h.agrees t F hF).eq_of_forall hall]

theorem lookup_of_disagreement (h : Merged offers ts) (hL : (t, L) ∈ offers)
    (hL' : (t, L') ∈ offers) (hne : L ≠ L') : ts.lookup t = some [] := by
  obtain ⟨F, hF⟩ := h.covers t L hL
  have hnil : F = [] := by
    refine Decidable.byContradiction fun hF' => ?_
    have hall := (h.agrees t F hF).forall_of_ne_nil hF'
    exact hne ((hall L hL).trans (hall L' hL').symm)
  rw [h.lookup_eq hF, hnil]

-- What is agreed on depends only on which additions there are.
theorem mem_of_mem (h : Merged offers ts) (h' : Merged offers' ts')
    (hmem : ∀ offer, offer ∈ offers ↔ offer ∈ offers') (hm : (t, F) ∈ ts) : (t, F) ∈ ts' := by
  obtain ⟨⟨L, hL⟩, hag⟩ := h.agrees t F hm
  obtain ⟨F', hF'⟩ := h'.covers t L ((hmem _).mp hL)
  have hlookup : ts'.lookup t = some F := by
    rcases hag with hall | ⟨rfl, L₁, L₂, h₁, h₂, hne⟩
    · cases hall L hL
      exact h'.lookup_of_agreement ((hmem _).mp hL) fun L' hL' => hall L' ((hmem _).mpr hL')
    · exact h'.lookup_of_disagreement ((hmem _).mp h₁) ((hmem _).mp h₂) hne
  cases hlookup.symm.trans (h'.lookup_eq hF')
  exact hF'

theorem perm (h : Merged offers ts) (h' : Merged offers' ts')
    (hmem : ∀ offer, offer ∈ offers ↔ offer ∈ offers') : ts.Perm ts' := by
  refine (List.perm_ext_iff_of_nodup (.of_map _ h.keys) (.of_map _ h'.keys)).mpr fun offer => ?_
  exact ⟨h.mem_of_mem h' hmem, h'.mem_of_mem h fun offer => (hmem offer).symm⟩

theorem lookup_congr (h : Merged offers ts) (h' : Merged offers' ts')
    (hmem : ∀ offer, offer ∈ offers ↔ offer ∈ offers') (t : TokenType) :
    ts.lookup t = ts'.lookup t := by
  cases hs : ts'.lookup t
  case none =>
    rw [List.lookup_eq_none_iff] at hs ⊢
    exact fun offer ho => hs offer ((h.perm h' hmem).mem_iff.mp ho)
  case some F =>
    obtain ⟨before, after, rfl, _⟩ := List.lookup_eq_some_iff.mp hs
    exact h.lookup_eq ((h.perm h' hmem).mem_iff.mpr (by simp))

end Merged

theorem merged_addTokens : Merged offers (empty.addTokens offers).tokens := by
  rw [addTokens_tokens]
  exact Merged.nil.mergeAll

-- Lists with the same members are those that permutations and repetitions lead to.
theorem addTokens_exact (offers : List Offer) :
    let ts := (empty.addTokens offers).tokens
    ts.map Prod.fst = (offers.map Prod.fst).eraseDups ∧
    (∀ t L, (t, L) ∈ offers → (∀ L', (t, L') ∈ offers → L' = L) → ts.lookup t = some L) ∧
    (∀ t L L', (t, L) ∈ offers → (t, L') ∈ offers → L ≠ L' → ts.lookup t = some []) ∧
    ∀ offers', (∀ offer, offer ∈ offers' ↔ offer ∈ offers) →
      (empty.addTokens offers').tokens.Perm ts ∧
        ∀ t, (empty.addTokens offers').tokens.lookup t = ts.lookup t := by
  intro ts
  have h : Merged offers ts := merged_addTokens
  refine ⟨?_, fun t L => h.lookup_of_agreement, fun t L L' => h.lookup_of_disagreement, ?_⟩
  · simp only [ts, addTokens_tokens]
    exact mergeAll_keys
  · intro offers' hmem
    exact ⟨merged_addTokens.perm h hmem, merged_addTokens.lookup_congr h hmem⟩

-- A token that has become ambiguous stays so, also if an addition brings what it once forced.
example : (empty.addTokens [(1, [2, 3]), (4, []), (1, [4]), (1, []), (1, [2, 3])]).tokens =
    [(1, []), (4, [])] := by
  decide

end Caret.Candidates
