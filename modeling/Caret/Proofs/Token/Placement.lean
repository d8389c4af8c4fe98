import Caret.Proofs.Document.Positions
import Caret.Token.Tokenize
import Mathlib.Data.List.Forall2

-- Where tokens stand. Two cursors move over a source, one over its bytes and one over its lines,
-- and never look back; every token gets the offset and the position that it has in the source.
namespace Caret

open String (utf8Len)

namespace LineCursor

variable {c : LineCursor} {ls a b : List Line} {x : Line} {offset offset' : Nat}

-- The cursor is at a line that does not start after the offset.
def Behind (c : LineCursor) (ls : List Line) (offset : Nat) : Prop :=
  ∃ a x b, ls = a ++ x :: b ∧ Line.totalLength a ≤ offset ∧
    c = ⟨a.length, Line.totalLength a, Line.withOffsets (Line.totalLength a + x.length) b⟩

theorem behind_ofLines (hn : ls ≠ []) : (ofLines (Line.withOffsets 0 ls)).Behind ls 0 := by
  have ⟨x, b, he⟩ := List.exists_cons_of_ne_nil hn
  exact ⟨[], x, b, he, Nat.le_refl _, by simp [he, Line.withOffsets, ofLines]⟩

-- The induction is on the lines ahead; the line that the cursor leaves joins those before it.
theorem seek_locates (hstart : Line.totalLength a ≤ offset)
    (hstop : offset ≤ Line.totalLength (a ++ x :: b)) :
    let c := seek offset a.length (Line.totalLength a)
      (Line.withOffsets (Line.totalLength a + x.length) b)
    c.Behind (a ++ x :: b) offset ∧ Line.Locates (a ++ x :: b) (c.position offset) offset := by
  induction b generalizing a x
  case nil =>
    simp only [Line.totalLength_append, Line.totalLength_cons, Line.totalLength_nil] at hstop
    have hc : Line.Covers a x [] offset := by
      refine ⟨hstart, ?_⟩
      rcases Nat.lt_or_eq_of_le hstop with hlt | heq
      · exact .inl (by omega)
      · exact .inr ⟨by omega, rfl⟩
    exact ⟨⟨a, x, [], rfl, hstart, rfl⟩, hc.locates⟩
  case cons y b hi =>
    simp only [Line.withOffsets, seek]
    split
    case isTrue hle =>
      have hi' := hi (a := a ++ [x]) (x := y) (by simpa using hle) (by simpa using hstop)
      simpa [Nat.add_assoc] using hi'
    case isFalse hlt =>
      have hc : Line.Covers a x (y :: b) offset := ⟨hstart, .inl (Nat.not_le.mp hlt)⟩
      exact ⟨⟨a, x, y :: b, rfl, hstart, rfl⟩, hc.locates⟩

theorem Behind.advance (h : c.Behind ls offset) (hle : offset ≤ offset')
    (ho : offset' ≤ Line.totalLength ls) :
    (c.advance offset').Behind ls offset' ∧
      Line.Locates ls ((c.advance offset').position offset') offset' := by
  obtain ⟨a, x, b, rfl, hstart, rfl⟩ := h
  exact seek_locates (Nat.le_trans hstart hle) ho

-- The positions of offsets that the cursor is moved to one after the other.
def locateAll (c : LineCursor) : List Nat → List Position
  | []      => []
  | o :: os => (c.advance o).position o :: (c.advance o).locateAll os

theorem Behind.locateAll {s : Snapshot} {cs : List Char} {offsets : List Nat}
    (h : c.Behind (splitLines cs) offset) (hs : s.lines.Tracks cs)
    (hoffsets : (offset :: offsets).Pairwise (· ≤ ·)) (hbound : ∀ o ∈ offsets, o ≤ cs.length) :
    List.Forall₂ (fun o p => s.positionAt o = .ok p) offsets (c.locateAll offsets) := by
  induction offsets generalizing c offset
  case nil => exact .nil
  case cons o os hi =>
    have ⟨hle, hos⟩ := List.pairwise_cons.mp hoffsets
    have ⟨ho, hbound⟩ := List.forall_mem_cons.mp hbound
    have ⟨hc, hp⟩ := h.advance (hle o List.mem_cons_self) (totalLength_splitLines cs ▸ ho)
    exact .cons (Snapshot.positionAt_eq hs hp) (hi hc hos hbound)

end LineCursor

namespace SourceCursor

-- The cursor is after the given characters.
structure After (c : SourceCursor) (before : List Char) : Prop where
  bytes : c.bytes = utf8Len before
  chars : c.chars = before.length

theorem After.advance {c : SourceCursor} {source : String} {p p' : List Char} (h : c.After p)
    (hp : p <+: p') (hp' : p' <+: source.toList) : (c.advance source (utf8Len p')).After p' := by
  obtain ⟨d, rfl⟩ := hp
  obtain ⟨q, hq⟩ := hp'
  have hs : source.toList = p ++ (d ++ q) := by rw [← hq, List.append_assoc]
  have hslice := congrArg List.length (sliceBytes_eq hs)
  rw [String.length_toList] at hslice
  constructor
  case bytes => rfl
  case chars => simp [SourceCursor.advance, h.bytes, h.chars, hslice]

end SourceCursor

namespace Lexeme

variable {α : Type}

-- What a lexer promises: its lexemes are not empty, they begin and end between two characters, and
-- each one begins after the one before has ended.
structure Proper (source : String) (lexemes : List (Lexeme α)) : Prop where
  nonempty : ∀ l ∈ lexemes, l.start < l.stop
  start    : ∀ l ∈ lexemes, String.Pos.Raw.IsValid source ⟨l.start⟩
  stop     : ∀ l ∈ lexemes, String.Pos.Raw.IsValid source ⟨l.stop⟩
  ordered  : lexemes.Pairwise (·.stop ≤ ·.start)

-- The characters before, in and after a lexeme.
structure Cuts (l : Lexeme α) (source : String) (before body after : List Char) : Prop where
  source_eq : source.toList = before ++ (body ++ after)
  start     : l.start = utf8Len before
  stop      : l.stop = utf8Len before + utf8Len body

-- The lexeme gives the token: it has the characters of the lexeme and stands where they stand.
structure Gives (classify : α → Option TokenType) (source : String) (l : Lexeme α) (t : Token) :
    Prop where
  type     : l.type? classify = some t.type
  place    : ∃ before body after, l.Cuts source before body after ∧ t.start = before.length ∧
    t.text.toList = body
  position : (Snapshot.anonymous source).positionAt t.start = .ok t.position

-- The lexemes that are not dropped.
def kept (classify : α → Option TokenType) (lexemes : List (Lexeme α)) : List (Lexeme α) :=
  lexemes.filter fun l => (l.type? classify).isSome

variable {classify : α → Option TokenType} {source : String} {l l' : Lexeme α} {t t' : Token}
  {lexemes : List (Lexeme α)} {tokens tokens' : List Token}

namespace Cuts

variable {p d q p' d' q' : List Char}

theorem before_front (h : l.Cuts source p d q) : p <+: source.toList :=
  ⟨d ++ q, h.source_eq.symm⟩

theorem body_front (h : l.Cuts source p d q) : p ++ d <+: source.toList :=
  ⟨q, by rw [h.source_eq, List.append_assoc]⟩

-- A lexeme that begins after another one has ended has all of its characters after it.
theorem append_front (h : l.Cuts source p d q) (h' : l'.Cuts source p' d' q')
    (hle : l.stop ≤ l'.start) : p ++ d <+: p' := by
  refine prefix_of_utf8Len_le h.body_front h'.before_front ?_
  rwa [String.utf8Len_append, ← h.stop, ← h'.start]

theorem body_pos (h : l.Cuts source p d q) (hne : l.start < l.stop) : 0 < d.length := by
  rw [h.start, h.stop] at hne
  refine List.length_pos_iff.mpr fun hd => ?_
  simp [hd] at hne

theorem unique (h : l.Cuts source p d q) (h' : l.Cuts source p' d' q') : p = p' ∧ d = d' := by
  have hp : p = p' :=
    eq_of_utf8Len_eq h.before_front h'.before_front (h.start.symm.trans h'.start)
  have hd : p ++ d = p' ++ d' := by
    refine eq_of_utf8Len_eq h.body_front h'.body_front ?_
    rw [String.utf8Len_append, String.utf8Len_append]
    exact h.stop.symm.trans h'.stop
  subst hp
  exact ⟨rfl, List.append_cancel_left hd⟩

end Cuts

namespace Proper

theorem nil : Proper source ([] : List (Lexeme α)) where
  nonempty := by simp
  start    := by simp
  stop     := by simp
  ordered  := .nil

theorem cons (h : Proper source lexemes) (hne : l.start < l.stop)
    (hstart : String.Pos.Raw.IsValid source ⟨l.start⟩)
    (hstop : String.Pos.Raw.IsValid source ⟨l.stop⟩) (hle : ∀ l' ∈ lexemes, l.stop ≤ l'.start) :
    Proper source (l :: lexemes) where
  nonempty := List.forall_mem_cons.mpr ⟨hne, h.nonempty⟩
  start    := List.forall_mem_cons.mpr ⟨hstart, h.start⟩
  stop     := List.forall_mem_cons.mpr ⟨hstop, h.stop⟩
  ordered  := .cons hle h.ordered

theorem tail (h : Proper source (l :: lexemes)) : Proper source lexemes where
  nonempty := (List.forall_mem_cons.mp h.nonempty).right
  start    := (List.forall_mem_cons.mp h.start).right
  stop     := (List.forall_mem_cons.mp h.stop).right
  ordered  := (List.pairwise_cons.mp h.ordered).right

theorem kept (h : Proper source lexemes) : Proper source (kept classify lexemes) where
  nonempty l hm := h.nonempty l (List.mem_filter.mp hm).left
  start l hm    := h.start l (List.mem_filter.mp hm).left
  stop l hm     := h.stop l (List.mem_filter.mp hm).left
  ordered       := h.ordered.filter _

theorem exists_cuts (h : Proper source lexemes) (hm : l ∈ lexemes) :
    ∃ before body after, l.Cuts source before body after := by
  have ⟨p, q, hp, hs⟩ := isValid_iff_exists_parts.mp (h.start l hm)
  have ⟨p', q', hp', hs'⟩ := isValid_iff_exists_parts.mp (h.stop l hm)
  have hne := h.nonempty l hm
  obtain ⟨d, rfl⟩ := prefix_of_utf8Len_le ⟨q, hp.symm⟩ ⟨q', hp'.symm⟩ (by omega)
  exact ⟨p, d, q', by simpa using hp', hs, by simpa using hs'⟩

end Proper

namespace Gives

theorem unique (h : l.Gives classify source t) (h' : l.Gives classify source t') : t = t' := by
  have ⟨p, d, q, hc, hstart, htext⟩ := h.place
  have ⟨p', d', q', hc', hstart', htext'⟩ := h'.place
  have ⟨hp, hd⟩ := hc.unique hc'
  have htype := h.type.symm.trans h'.type
  have hpos := h.position
  rw [hstart, hp, ← hstart', h'.position] at hpos
  obtain ⟨type, text, start, line, column⟩ := t
  obtain ⟨type', text', start', line', column'⟩ := t'
  simp_all [Token.position, ← String.toList_inj]

-- A token ends where the characters of its lexeme end.
theorem stop_eq {p d q : List Char} (h : l.Gives classify source t) (hc : l.Cuts source p d q) :
    t.start = p.length ∧ t.stop = (p ++ d).length := by
  have ⟨p', d', q', hc', hstart, htext⟩ := h.place
  obtain ⟨rfl, rfl⟩ := hc.unique hc'
  refine ⟨hstart, ?_⟩
  rw [Token.stop, hstart, ← String.length_toList, htext, List.length_append]

theorem start_lt_stop (h : l.Gives classify source t) (hne : l.start < l.stop) :
    t.start < t.stop := by
  have ⟨p, d, q, hc, _⟩ := h.place
  have ⟨hstart, hstop⟩ := h.stop_eq hc
  have hpos := hc.body_pos hne
  rw [hstart, hstop, List.length_append]
  omega

theorem stop_le_length (h : l.Gives classify source t) : t.stop ≤ source.length := by
  have ⟨p, d, q, hc, _⟩ := h.place
  rw [(h.stop_eq hc).right, ← String.length_toList]
  exact hc.body_front.length_le

theorem stop_le_start (h : l.Gives classify source t) (h' : l'.Gives classify source t')
    (hle : l.stop ≤ l'.start) : t.stop ≤ t'.start := by
  have ⟨p, d, q, hc, _⟩ := h.place
  have ⟨p', d', q', hc', _⟩ := h'.place
  rw [(h.stop_eq hc).right, (h'.stop_eq hc').left]
  exact (hc.append_front hc' hle).length_le

end Gives

-- The tokens are those of the lexemes that are not dropped, and one for the end of the source.
def GivesAll (classify : α → Option TokenType) (source : String) (lexemes : List (Lexeme α))
    (tokens : List Token) : Prop :=
  ∃ placed p, tokens = placed ++ [.eof source.length p.line p.character] ∧
    List.Forall₂ (Gives classify source) (kept classify lexemes) placed ∧
    (Snapshot.anonymous source).positionAt source.length = .ok p

theorem exists_lexeme_of_mem (h : List.Forall₂ (Gives classify source) lexemes tokens)
    (ht : t ∈ tokens) : ∃ l ∈ lexemes, l.Gives classify source t := by
  induction h
  case nil => simp at ht
  case cons l t' ls ts hg _ hi =>
    rcases List.mem_cons.mp ht with rfl | ht
    · exact ⟨l, List.mem_cons_self, hg⟩
    · have ⟨l', hm, hg'⟩ := hi ht
      exact ⟨l', List.mem_cons_of_mem _ hm, hg'⟩

theorem pairwise_of_gives (h : List.Forall₂ (Gives classify source) lexemes tokens)
    (hl : Proper source lexemes) :
    tokens.Pairwise fun t t' => t.start < t'.start ∧ t.stop ≤ t'.start := by
  induction h
  case nil => exact .nil
  case cons l t ls ts hg hgs hi =>
    refine .cons (fun t' ht' => ?_) (hi hl.tail)
    have ⟨l', hm, hg'⟩ := exists_lexeme_of_mem hgs ht'
    have hlt := hg.start_lt_stop (hl.nonempty l List.mem_cons_self)
    have hle := hg.stop_le_start hg' ((List.pairwise_cons.mp hl.ordered).left l' hm)
    exact ⟨Nat.lt_of_lt_of_le hlt hle, hle⟩

namespace GivesAll

theorem drop (h : GivesAll classify source lexemes tokens) (hl : l.type? classify = none) :
    GivesAll classify source (l :: lexemes) tokens := by
  simpa [GivesAll, kept, hl] using h

theorem cons (h : GivesAll classify source lexemes tokens) (hg : l.Gives classify source t) :
    GivesAll classify source (l :: lexemes) (t :: tokens) := by
  have ⟨placed, p, htokens, hplaced, hp⟩ := h
  have hkept : kept classify (l :: lexemes) = l :: kept classify lexemes := by
    simp [kept, hg.type]
  refine ⟨t :: placed, p, by simp [htokens], ?_, hp⟩
  rw [hkept]
  exact .cons hg hplaced

theorem unique (h : GivesAll classify source lexemes tokens)
    (h' : GivesAll classify source lexemes tokens') : tokens = tokens' := by
  have ⟨placed, p, htokens, hplaced, hp⟩ := h
  have ⟨placed', p', htokens', hplaced', hp'⟩ := h'
  have heq : placed = placed' :=
    List.right_unique_forall₂' (fun _ _ _ hg hg' => hg.unique hg') hplaced hplaced'
  cases hp.symm.trans hp'
  rw [htokens, htokens', heq]

theorem of_kept (h : GivesAll classify source (kept classify lexemes) tokens) :
    GivesAll classify source lexemes tokens := by
  simpa [GivesAll, kept] using h

-- Tokens do not overlap, and all of them come before the end of the source.
theorem pairwise (h : GivesAll classify source lexemes tokens) (hl : Proper source lexemes) :
    tokens.Pairwise fun t t' => t.start < t'.start ∧ t.stop ≤ t'.start := by
  have ⟨placed, p, htokens, hplaced, _⟩ := h
  have hkept : Proper source (kept classify lexemes) := hl.kept
  rw [htokens, List.pairwise_append]
  refine ⟨pairwise_of_gives hplaced hkept, List.pairwise_singleton .., fun t ht t' ht' => ?_⟩
  cases List.mem_singleton.mp ht'
  have ⟨l, hm, hg⟩ := exists_lexeme_of_mem hplaced ht
  have hlt := hg.start_lt_stop (hkept.nonempty l hm)
  exact ⟨Nat.lt_of_lt_of_le hlt hg.stop_le_length, hg.stop_le_length⟩

end GivesAll

end Lexeme

section Place

variable {α : Type} {classify : α → Option TokenType} {source : String} {c : SourceCursor}
  {lines : LineCursor} {p : List Char} {offset : Nat} {lexemes : List (Lexeme α)}

theorem tracks_anonymous (source : String) :
    (Snapshot.anonymous source).lines.Tracks source.toList :=
  LineIndex.tracks_ofText source

-- Both cursors are at or before the next lexeme, the one for lines possibly further back since
-- lexemes that are dropped do not move it.
theorem placeTokens_gives (hc : c.After p) (hp : p <+: source.toList)
    (hlines : lines.Behind (splitLines source.toList) offset) (ho : offset ≤ p.length)
    (hl : Lexeme.Proper source lexemes) (hle : ∀ l ∈ lexemes, utf8Len p ≤ l.start) :
    Lexeme.GivesAll classify source lexemes (placeTokens classify source c lines lexemes) := by
  induction lexemes generalizing c lines p offset
  case nil =>
    have hchars := (hc.advance hp List.prefix_rfl).chars
    have hlen : p.length ≤ source.toList.length := hp.length_le
    have ⟨_, hpos⟩ := hlines.advance (Nat.le_trans ho hlen)
      (Nat.le_of_eq (totalLength_splitLines _).symm)
    rw [String.length_toList] at hpos
    rw [← utf8ByteSize_eq, String.length_toList] at hchars
    refine ⟨[], _, ?_, .nil, Snapshot.positionAt_eq (tracks_anonymous source) hpos⟩
    simp only [placeTokens, hchars, List.nil_append]
  case cons l ls hi =>
    have ⟨p', d, q, hcuts⟩ := hl.exists_cuts List.mem_cons_self
    have hstart := hle l List.mem_cons_self
    have hne := hl.nonempty l List.mem_cons_self
    have hfront := prefix_of_utf8Len_le hp hcuts.before_front (hcuts.start ▸ hstart)
    -- The cursor moves on to the beginning of the lexeme.
    have hc' : (c.advance source l.start).After p' :=
      hcuts.start ▸ hc.advance hfront hcuts.before_front
    have ho' : offset ≤ p'.length := Nat.le_trans ho hfront.length_le
    have hle' : ∀ l' ∈ ls, utf8Len p' ≤ l'.start := fun l' hm => by
      have hsep := (List.pairwise_cons.mp hl.ordered).left l' hm
      rw [← hcuts.start]
      omega
    cases htype : l.type? classify
    case none =>
      have hrest := hi hc' hcuts.before_front hlines ho' hl.tail hle'
      simp only [placeTokens, htype]
      exact hrest.drop htype
    case some type =>
      have hbound : p'.length ≤ Line.totalLength (splitLines source.toList) := by
        rw [totalLength_splitLines]
        exact hcuts.before_front.length_le
      have ⟨hlines', hpos⟩ := hlines.advance ho' hbound
      have hrest := hi hc' hcuts.before_front hlines' (Nat.le_refl _) hl.tail hle'
      have hslice := sliceBytes_eq hcuts.source_eq
      rw [← hcuts.stop, ← hcuts.start] at hslice
      simp only [placeTokens, htype, hc'.chars]
      exact hrest.cons ⟨htype, ⟨p', d, q, hcuts, rfl, hslice⟩,
        Snapshot.positionAt_eq (tracks_anonymous source) hpos⟩

theorem behind_ofText (source : String) :
    (LineCursor.ofLines (LineIndex.ofText source).lines).Behind (splitLines source.toList) 0 := by
  rw [(LineIndex.tracks_ofText source).lines_eq]
  exact LineCursor.behind_ofLines (splitLines_ne_nil source.toList)

theorem tokenizeBy_gives (hl : Lexeme.Proper source lexemes) :
    Lexeme.GivesAll classify source lexemes (tokenizeBy classify source lexemes) := by
  have hc : SourceCursor.After ⟨0, 0⟩ [] := ⟨rfl, rfl⟩
  exact placeTokens_gives hc List.nil_prefix (behind_ofText source) (Nat.zero_le _) hl
    fun _ _ => Nat.zero_le _

-- Tokens stand where the index of the lines says. A lexeme that is dropped leaves no trace, and
-- the cursor over the lines answers as the index does, whatever offsets it is moved to.
theorem tokenizeBy_placed (classify : α → Option TokenType) (source : String)
    (lexemes : List (Lexeme α)) (hl : Lexeme.Proper source lexemes) :
    let tokens := tokenizeBy classify source lexemes
    Lexeme.GivesAll classify source lexemes tokens ∧
    (tokens.Pairwise fun t t' => t.start < t'.start ∧ t.stop ≤ t'.start) ∧
    tokens = tokenizeBy classify source (Lexeme.kept classify lexemes) ∧
    ∀ offsets : List Nat, offsets.Pairwise (· ≤ ·) → (∀ o ∈ offsets, o ≤ source.length) →
      List.Forall₂ (fun o p => (Snapshot.anonymous source).positionAt o = .ok p) offsets
        ((LineCursor.ofLines (LineIndex.ofText source).lines).locateAll offsets) := by
  intro tokens
  have hg : Lexeme.GivesAll classify source lexemes tokens := tokenizeBy_gives hl
  refine ⟨hg, hg.pairwise hl, hg.unique (tokenizeBy_gives hl.kept).of_kept,
    fun offsets hoffsets hbound => ?_⟩
  refine (behind_ofText source).locateAll (tracks_anonymous source)
    (.cons (fun _ _ => Nat.zero_le _) hoffsets) fun o hm => ?_
  rw [String.length_toList]
  exact hbound o hm

-- A letter of two bytes, the first character of a newline, which is dropped, and an invalid piece
-- that begins inside the newline and goes on in the next line.
def acrossNewline : List (Lexeme (Option TokenType)) :=
  [⟨0, 2, some (some 1)⟩, ⟨2, 3, some none⟩, ⟨3, 5, none⟩]

theorem tokenizeBy_placed_acrossNewline :
    Lexeme.Proper "ä\r\nb" acrossNewline ∧
      tokenizeBy id "ä\r\nb" acrossNewline =
        [⟨1, "ä", 0, 0, 0⟩, ⟨0, "\nb", 2, 0, 2⟩, .eof 4 1 1] ∧
      Lexeme.GivesAll id "ä\r\nb" acrossNewline (tokenizeBy id "ä\r\nb" acrossNewline) := by
  have hl : Lexeme.Proper "ä\r\nb" acrossNewline := by
    constructor <;> decide
  exact ⟨hl, by decide +kernel, (tokenizeBy_placed id "ä\r\nb" acrossNewline hl).left⟩

end Place

namespace Lexer

variable {α : Type} (lexer : Lexer α) {source : String}

-- The rest of a source is cut into lexemes from where it begins.
theorem lexemesFrom_proper {offset : Nat} {p cs : List Char} (hs : source.toList = p ++ cs)
    (ho : offset = utf8Len p) :
    Lexeme.Proper source (lexer.lexemesFrom offset cs) ∧
      ∀ l ∈ lexer.lexemesFrom offset cs, offset ≤ l.start := by
  fun_induction lexemesFrom lexer offset cs generalizing p
  case case1 => exact ⟨.nil, by simp⟩
  case case2 offset c cs first stop hi =>
    have hs' : source.toList = (p ++ (c :: cs).take first.fst) ++ (c :: cs).drop first.fst := by
      rw [List.append_assoc, List.take_append_drop, hs]
    have hstop : stop = utf8Len (p ++ (c :: cs).take first.fst) := by
      rw [String.utf8Len_append, ← ho, ← String.utf8ByteSize_ofList]
    have hne : offset < stop := by
      have hfirst : 1 ≤ first.fst := lexer.one_le_first (c :: cs)
      have hbody : (c :: cs).take first.fst ≠ [] := by
        simp only [ne_eq, List.take_eq_nil_iff, reduceCtorEq, or_false]
        omega
      rw [hstop, String.utf8Len_append, ← ho]
      exact Nat.lt_add_of_pos_right (Nat.pos_of_ne_zero (mt String.utf8Len_eq_zero.mp hbody))
    have ⟨hrest, hle⟩ := hi hs' hstop
    refine ⟨hrest.cons hne ?_ ?_ hle, List.forall_mem_cons.mpr ⟨Nat.le_refl _, fun l hm => ?_⟩⟩
    · exact isValid_iff_exists_parts.mpr ⟨p, c :: cs, hs, ho⟩
    · exact isValid_iff_exists_parts.mpr ⟨_, _, hs', hstop⟩
    · exact Nat.le_trans (Nat.le_of_lt hne) (hle l hm)

-- What is promised of lexers holds of these.
theorem lexemes_proper (source : String) : Lexeme.Proper source (lexer.lexemes source) :=
  (lexer.lexemesFrom_proper (List.nil_append _).symm rfl).left

end Lexer
end Caret
