import Caret.Proofs.Document.Plain

-- The journal of a batch. Every change leaves an entry that takes it back, from any content of the
-- changed characters; so the entries, latest first, lead back to where the batch began.
namespace Caret.Content

variable {c c' : Content} {cs cs' cs₀ : List Char} {flag flag₀ : Bool}

namespace Undo

-- The replacement that takes a change back is not rejected.
def Accepted (c : Content) : Undo → Prop
  | restore _                    => True
  | replace offset length text _ => ∃ r, c.replace offset length text = .ok r

-- The entry leads from any content of the one characters to a content of the others.
structure Reverts (u : Undo) (c : Content) (cs : List Char) (flag : Bool) : Prop where
  accepted : u.Accepted c
  tracks   : (c.undo u).Tracks cs
  isAscii  : (c.undo u).isAscii = flag

theorem reverts_restore (h : c.Tracks cs) : (restore c).Reverts c' cs c.isAscii :=
  ⟨trivial, h, rfl⟩

theorem reverts_replace {offset length : Nat} {removed : String} (h : c.Tracks cs)
    (h' : c'.Tracks cs')
    (hs : spliceChars? cs' offset length removed.toList = some cs) :
    (replace offset length removed c.isAscii).Reverts c' cs c.isAscii := by
  have ⟨c'', _, hr, ht, _⟩ := h'.replace_some hs
  refine ⟨⟨_, hr⟩, ⟨?_, ?_, ?_⟩, ?_⟩
  · simp [undo, hr, ht.text]
  · simpa [undo, hr] using ht.lines
  · intro ha
    have he : c''.text = c.text := by rw [← String.toList_inj, ht.text, h.text]
    simp only [undo, hr] at ha ⊢
    rw [he]
    exact h.ascii ha
  · simp [undo, hr]

end Undo

-- What a change leaves, and how it is taken back.
structure Changes (c : Content) (cs cs' : List Char) (c' : Content) (u : Undo) : Prop where
  tracks  : c'.Tracks cs'
  reverts : ∀ c'', c''.Tracks cs' → u.Reverts c'' cs c.isAscii

theorem Tracks.replace_changes {offset length : Nat} {text : String} (h : c.Tracks cs)
    (hs : spliceChars? cs offset length text.toList = some cs') :
    ∃ c' u, c.replace offset length text = .ok (c', u) ∧ Changes c cs cs' c' u := by
  have ⟨c', removed, hr, ht, hb⟩ := h.replace_some hs
  exact ⟨c', _, hr, ht, fun c'' h'' => Undo.reverts_replace h h'' hb⟩

-- A change succeeds just if it does on the characters alone.
theorem Tracks.change_eq (h : c.Tracks cs) (x : Change) :
    match PlainDocument.change? cs x with
    | some cs' => ∃ c' u, c.change x = .ok (c', u) ∧ Changes c cs cs' c' u
    | none     => ∃ e, c.change x = .error e := by
  unfold PlainDocument.change? change
  cases x.range
  case none => exact ⟨_, _, rfl, tracks_ofText x.text, fun _ _ => Undo.reverts_restore h⟩
  case some range =>
    dsimp only
    rw [← h.lines.offsetOf_eq range.start, ← h.lines.offsetOf_eq range.stop]
    cases c.lines.offsetOf range.start
    case error e => exact ⟨_, rfl⟩
    case ok start =>
      cases c.lines.offsetOf range.stop
      case error e => exact ⟨_, rfl⟩
      case ok stop =>
        simp only [Except.mapError, Except.toOption, bind, Except.bind, Option.bind]
        by_cases hlt : stop < start
        case pos => simp [hlt]
        case neg =>
          simp only [hlt, if_false]
          cases hs : spliceChars? cs start (stop - start) x.text.toList
          case none =>
            obtain ⟨e, he⟩ := h.replace_none hs
            exact ⟨_, by rw [he]⟩
          case some cs' =>
            obtain ⟨c', u, hr, hc⟩ := h.replace_changes hs
            exact ⟨c', u, by rw [hr], hc⟩

-- Every entry of a journal can be played in its turn.
def Plays (c : Content) : List Undo → Prop
  | []      => True
  | u :: us => u.Accepted c ∧ Plays (c.undo u) us

-- The journal leads from any content of the characters `cs` with the given flag back to the
-- characters and the flag that the batch has found.
def Restores (journal : List Undo) (cs : List Char) (flag : Bool) (cs₀ : List Char) (flag₀ : Bool) :
    Prop :=
  ∀ c, c.Tracks cs → c.isAscii = flag →
    c.Plays journal ∧ (journal.foldl undo c).Tracks cs₀ ∧ (journal.foldl undo c).isAscii = flag₀

theorem restores_nil (cs : List Char) (flag : Bool) : Restores [] cs flag cs flag :=
  fun _ h hf => ⟨trivial, h, hf⟩

theorem Restores.cons {journal : List Undo} {u : Undo} (r : Restores journal cs c.isAscii cs₀ flag₀)
    (h : Changes c cs cs' c' u) : Restores (u :: journal) cs' c'.isAscii cs₀ flag₀ := by
  intro c'' h'' _
  have ⟨ha, ht, hf⟩ := h.reverts c'' h''
  have ⟨hp, hr⟩ := r _ ht hf
  exact ⟨⟨ha, hp⟩, hr⟩

-- Where a batch stops: the content, the journal so far and the error of the change that failed.
def batch (c : Content) (journal : List Undo) :
    List Change → Content × List Undo × Option ChangeError
  | []      => (c, journal, none)
  | x :: xs =>
    match c.change x with
    | .ok (c, u) => batch c (u :: journal) xs
    | .error e   => (c, journal, some e)

-- A batch plays the journal if a change has failed.
theorem changeAll_eq (c : Content) (journal : List Undo) (xs : List Change) :
    c.changeAll journal xs =
      match c.batch journal xs with
      | (c, journal, some e) => (journal.foldl undo c, some e)
      | (c, _, none)         => (c, none) := by
  induction xs generalizing c journal
  case nil => rfl
  case cons x xs hi =>
    simp only [changeAll, batch]
    cases c.change x
    case error e => rfl
    case ok r => exact hi ..

-- What holds where a batch stops.
structure Stops (xs : List Change) (cs cs₀ : List Char) (flag₀ : Bool) (c : Content)
    (journal : List Undo) (e : Option ChangeError) : Prop where
  exists_chars : ∃ cs', c.Tracks cs' ∧ Restores journal cs' c.isAscii cs₀ flag₀ ∧
    (e = none → PlainDocument.changeAll? cs xs = some cs')
  failed       : e.isSome → PlainDocument.changeAll? cs xs = none

theorem Tracks.batch_stops {journal : List Undo} (h : c.Tracks cs)
    (r : Restores journal cs c.isAscii cs₀ flag₀) (xs : List Change) :
    let (c', journal', e) := c.batch journal xs
    Stops xs cs cs₀ flag₀ c' journal' e := by
  induction xs generalizing c cs journal
  case nil => exact ⟨⟨cs, h, r, fun _ => rfl⟩, by simp⟩
  case cons x xs hi =>
    have hx := h.change_eq x
    cases hs : PlainDocument.change? cs x <;> simp only [hs] at hx
    case none =>
      have ⟨e, he⟩ := hx
      simp only [batch, he]
      exact ⟨⟨cs, h, r, by simp⟩, fun _ => by simp [PlainDocument.changeAll?, hs]⟩
    case some cs' =>
      have ⟨c', u, hc, hchanges⟩ := hx
      have ⟨hex, hfailed⟩ := hi hchanges.tracks (r.cons hchanges)
      simp only [batch, hc]
      exact ⟨by simpa [PlainDocument.changeAll?, hs] using hex,
        by simpa [PlainDocument.changeAll?, hs] using hfailed⟩

end Caret.Content
