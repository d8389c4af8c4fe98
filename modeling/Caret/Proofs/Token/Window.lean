import Caret.Proofs.Token.Placement
import Caret.Token.Window

-- The window at a caret, by offsets. A caret is given as a position, and tokens are compared with
-- it line by line; since positions are ordered as offsets are, the window is cut where the offset
-- of the caret cuts the source.
namespace Caret

theorem Position.not_lt {p q : Position} : ¬p < q ↔ q ≤ p := by
  rw [lt_def, le_def]
  omega

namespace Window

variable {tokens : List Token} {closing : Token → Bool} {offset : Nat}

-- In ascending order all tokens before the first one that starts at or after the offset start
-- before the offset, and no other token does.
theorem throughFirst_eq (hs : tokens.Pairwise (·.start < ·.start))
    (hc : ∀ t ∈ tokens, closing t = decide (offset ≤ t.start))
    (he : ∃ t ∈ tokens, offset ≤ t.start) :
    ∃ t, tokens.find? (offset ≤ ·.start) = some t ∧
      throughFirst closing tokens = tokens.filter (·.start < offset) ++ [t] := by
  induction tokens
  case nil => simp at he
  case cons t ts hi =>
    have ⟨hlt, hs'⟩ := List.pairwise_cons.mp hs
    have ⟨ht, hc'⟩ := List.forall_mem_cons.mp hc
    by_cases hle : offset ≤ t.start
    case pos =>
      have hnone : ts.filter (·.start < offset) = [] := by
        refine List.filter_eq_nil_iff.mpr fun t' hm => ?_
        have := hlt t' hm
        simp only [decide_eq_true_eq]
        omega
      refine ⟨t, by simp [hle], ?_⟩
      simp [throughFirst, ht, hle, hnone]
    case neg =>
      have he' : ∃ t' ∈ ts, offset ≤ t'.start := by
        simpa [hle] using he
      have ⟨u, hu, heq⟩ := hi hs' hc' he'
      refine ⟨u, by simpa [hle] using hu, ?_⟩
      simp [throughFirst, ht, hle, heq, Nat.lt_of_not_le hle]

theorem ofTokens_tokens {eof : Token} (hn : tokens ≠ []) :
    (ofTokens tokens eof).tokens = tokens := by
  cases tokens
  case nil      => contradiction
  case cons t _ => rfl

end Window

namespace Lexeme

variable {α : Type} {classify : α → Option TokenType} {source : String} {l : Lexeme α} {t : Token}
  {lexemes : List (Lexeme α)} {tokens : List Token} {caret : Position} {offset : Nat}

theorem Gives.not_eof (h : l.Gives classify source t)
    (hc : ∀ kind ∈ l.kind, classify kind ≠ some .eof) : t.isEof = false := by
  have ht : l.type? classify ≠ some .eof := by
    unfold type?
    split
    case h_1 kind hk => exact hc kind hk
    case h_2         => decide
  have hne : t.type ≠ .eof := fun he => ht (he ▸ h.type)
  simp [Token.isEof, hne]

-- A token that is not the end of the source is compared with the caret by its position.
theorem Gives.closes_eq (h : l.Gives classify source t)
    (hc : ∀ kind ∈ l.kind, classify kind ≠ some .eof)
    (hp : (Snapshot.anonymous source).positionAt offset = .ok caret) :
    Window.closes caret t = decide (offset ≤ t.start) := by
  have hlt := Snapshot.position_lt_iff (tracks_anonymous source) h.position hp
  rw [Window.closes, h.not_eof hc, Bool.false_or, decide_eq_decide, ← Position.not_lt, hlt,
    Nat.not_lt]

theorem GivesAll.closes_eq (h : GivesAll classify source lexemes tokens)
    (hc : ∀ l ∈ lexemes, ∀ kind ∈ l.kind, classify kind ≠ some .eof) (ho : offset ≤ source.length)
    (hp : (Snapshot.anonymous source).positionAt offset = .ok caret) :
    ∀ t ∈ tokens, Window.closes caret t = decide (offset ≤ t.start) := by
  have ⟨placed, p, htokens, hplaced, _⟩ := h
  rw [htokens]
  refine List.forall_mem_append.mpr ⟨fun t hm => ?_, List.forall_mem_singleton.mpr ?_⟩
  · have ⟨l, hl, hg⟩ := exists_lexeme_of_mem hplaced hm
    exact hg.closes_eq (hc l (List.mem_filter.mp hl).left) hp
  · simp [Window.closes, Token.isEof, Token.eof, ho]

-- The end of the source is behind every caret, and part of every window.
theorem GivesAll.exists_from (h : GivesAll classify source lexemes tokens)
    (ho : offset ≤ source.length) {start : Nat} (hs : start < tokens.length) :
    ∃ t ∈ tokens.drop start, offset ≤ t.start := by
  have ⟨placed, p, htokens, _, _⟩ := h
  refine ⟨.eof source.length p.line p.character, ?_, ho⟩
  rw [htokens, List.length_append, List.length_singleton] at hs
  rw [htokens, List.drop_append_of_le_length (Nat.le_of_lt_succ hs)]
  exact List.mem_append_right _ List.mem_cons_self

end Lexeme

namespace Window

variable {α : Type} {classify : α → Option TokenType} {source : String}
  {lexemes : List (Lexeme α)}

-- The caret is that of an offset; the last token of the window is the first one at or after it.
theorem upToPosition_cuts (start offset : Nat) (hl : Lexeme.Proper source lexemes)
    (hc : ∀ l ∈ lexemes, ∀ kind ∈ l.kind, classify kind ≠ some .eof)
    (hs : start < (tokenizeBy classify source lexemes).length) (ho : offset ≤ source.length) :
    let tokens := (tokenizeBy classify source lexemes).drop start
    let before := tokens.filter (·.start < offset)
    ∃ caret t, (Snapshot.anonymous source).positionAt offset = .ok caret ∧
      tokens.find? (offset ≤ ·.start) = some t ∧ t ∉ before ∧
      (upToPosition (tokenizeBy classify source lexemes) start caret).tokens = before ++ [t] ∧
      (upToPosition (tokenizeBy classify source lexemes) start caret).caret =
        tokens.countP (·.start < offset) := by
  intro tokens before
  have hg : Lexeme.GivesAll classify source lexemes (tokenizeBy classify source lexemes) :=
    tokenizeBy_gives hl
  have hlen : offset ≤ (Snapshot.anonymous source).length := by
    rwa [Snapshot.length, (tracks_anonymous source).length_eq, String.length_toList]
  obtain ⟨caret, hp⟩ := (Snapshot.positionAt_ok_iff (tracks_anonymous source)).mpr hlen
  have hsorted : tokens.Pairwise (·.start < ·.start) :=
    ((hg.pairwise hl).imp And.left).sublist (List.drop_sublist ..)
  have hcloses : ∀ t ∈ tokens, closes caret t = decide (offset ≤ t.start) :=
    fun t hm => hg.closes_eq hc ho hp t (List.mem_of_mem_drop hm)
  obtain ⟨t, hfind, heq⟩ := throughFirst_eq hsorted hcloses (hg.exists_from ho hs)
  have hw : (upToPosition (tokenizeBy classify source lexemes) start caret).tokens =
      before ++ [t] := by
    rw [upToPosition, heq]
    exact ofTokens_tokens (by simp)
  have hle : offset ≤ t.start := by simpa using List.find?_some hfind
  refine ⟨caret, t, hp, hfind, ?_, hw, ?_⟩
  · simp [before, hle]
  · rw [Window.caret, hw, List.countP_eq_length_filter]
    simp [before]

-- The caret is at the start of the second line. The invalid piece begins at the end of the first
-- one, inside its newline, and so before the caret.
theorem upToPosition_cuts_acrossNewline :
    Lexeme.Proper "ä\r\nb" acrossNewline ∧
      ∃ caret, (Snapshot.anonymous "ä\r\nb").positionAt 3 = .ok caret ∧
        (upToPosition (tokenizeBy id "ä\r\nb" acrossNewline) 1 caret).tokens =
          [⟨0, "\nb", 2, 0, 2⟩, .eof 4 1 1] := by
  have hl : Lexeme.Proper "ä\r\nb" acrossNewline := by
    constructor <;> decide
  have htokens : tokenizeBy id "ä\r\nb" acrossNewline =
      [⟨1, "ä", 0, 0, 0⟩, ⟨0, "\nb", 2, 0, 2⟩, .eof 4 1 1] := by
    decide +kernel
  have hc : ∀ l ∈ acrossNewline, ∀ kind ∈ l.kind, id kind ≠ some .eof := by
    simp [acrossNewline, TokenType.eof]
  obtain ⟨caret, t, hp, hfind, _, hw, _⟩ :=
    upToPosition_cuts 1 3 hl hc (by rw [htokens]; decide) (by decide)
  rw [htokens] at hfind hw
  cases hfind
  exact ⟨hl, caret, hp, by rw [htokens, hw]; rfl⟩

end Window
end Caret
