import Stencil.Proofs.Sink.Truncation
import Stencil.Sink.BoundedText

/-!
# The Longest Text That Fits

A text of bounded length ought to end up as the longest beginning of what is
sent that has room in it. Within one call it does: characters are stored up to
the first that has no room, and all behind that one are dropped with it. But
nothing is remembered between calls. If a wide character is dropped with some
bytes to spare, a later call that begins with a narrower one finds room again,
and what it stores does not belong there.

Up to the first character that is dropped there is no difference, so the stored
text always begins with the longest one that fits. It is that text exactly if
nothing is added to it, that is if no call behind the one that was cut begins
with a character that is narrow enough for the room that was left.

## Main definitions

* `Text.LongestFit`: The longest beginning of a text that has room.
* `Text.fitting`: The same, found character by character.
* `TooWide`: Nothing of a call fits into the room that is left.
* `Settled`: Nothing fits any more behind the first call that was cut.

## Theorems

* `Text.longestFit_iff`: Both ways to say what fits are the same.
* `TextStore.text_accept`: A call stores what fits of it.
* `TextStore.text_acceptAll_eq_self_iff`: When calls store nothing.
* `TextStore.longestFit_iff_settled`: When the longest text is stored.
-/

namespace Stencil

namespace Text

/-- The characters of a text up to the first that does not fit. -/
def fitting : Nat → Text → Text
  | _, [] => []
  | room, c :: rest => if c.utf8Size ≤ room then c :: fitting (room - c.utf8Size) rest else []

/-- A text is the longest beginning of another that takes no more than `room`
    bytes. -/
structure LongestFit (room : Nat) (t u : Text) : Prop where
  begins : u <+: t
  fits : u.byteLength ≤ room
  longest : ∀ other : Text, other <+: t → other.byteLength ≤ room → other.length ≤ u.length

theorem fitting_nil (room : Nat) : fitting room [] = [] := rfl

theorem fitting_cons_of_fits {room : Nat} {c : Char} (h : c.utf8Size ≤ room) (rest : Text) :
    fitting room (c :: rest) = c :: fitting (room - c.utf8Size) rest := if_pos h

theorem fitting_cons_of_wide {room : Nat} {c : Char} (h : room < c.utf8Size) (rest : Text) :
    fitting room (c :: rest) = [] := if_neg (Nat.not_le_of_lt h)

theorem fitting_isPrefix (room : Nat) (t : Text) : fitting room t <+: t := by
  induction t generalizing room with
  | nil => exact List.prefix_refl _
  | cons c rest ih =>
      by_cases h : c.utf8Size ≤ room
      · rw [fitting_cons_of_fits h, List.cons_prefix_cons]
        exact ⟨rfl, ih _⟩
      · rw [fitting_cons_of_wide (Nat.lt_of_not_le h)]
        exact List.nil_prefix

theorem byteLength_fitting_le (room : Nat) (t : Text) : (fitting room t).byteLength ≤ room := by
  induction t generalizing room with
  | nil => exact Nat.zero_le _
  | cons c rest ih =>
      -- What is stored of the rest has the room that the character leaves.
      by_cases h : c.utf8Size ≤ room
      · have hrest := ih (room - c.utf8Size)
        rw [fitting_cons_of_fits h, byteLength_cons]
        omega
      · rw [fitting_cons_of_wide (Nat.lt_of_not_le h)]
        exact Nat.zero_le _

/-- No other beginning that has room is longer, by induction on the text. -/
theorem isPrefix_fitting {room : Nat} {t u : Text} (h : u <+: t) (hroom : u.byteLength ≤ room) :
    u <+: fitting room t := by
  induction t generalizing room u with
  | nil => exact h
  | cons c rest ih =>
      cases u with
      | nil => exact List.nil_prefix
      | cons d u =>
          -- Both begin with the character, which has room as the other text has.
          rcases List.cons_prefix_cons.mp h with ⟨rfl, htail⟩
          rw [byteLength_cons] at hroom
          rw [fitting_cons_of_fits (by omega), List.cons_prefix_cons]
          exact ⟨rfl, ih htail (by omega)⟩

theorem longestFit_fitting (room : Nat) (t : Text) : LongestFit room t (fitting room t) :=
  ⟨fitting_isPrefix room t, byteLength_fitting_le room t,
    fun _ hother hroom => (isPrefix_fitting hother hroom).length_le⟩

/-- There is one longest text that fits, and character by character one finds it. -/
theorem longestFit_iff {room : Nat} {t u : Text} : LongestFit room t u ↔ u = fitting room t := by
  constructor
  · intro h
    -- No shorter than the one found, and a beginning of it, so it is that one.
    have hlong := h.longest _ (fitting_isPrefix room t) (byteLength_fitting_le room t)
    exact (isPrefix_fitting h.begins h.fits).eq_of_length_le hlong
  · intro h
    rw [h]
    exact longestFit_fitting room t

/-- Behind a text that fits, what fits of the rest is stored. -/
theorem fitting_append_of_fits {room : Nat} {s : Text} (h : s.byteLength ≤ room) (t : Text) :
    fitting room (s ++ t) = s ++ fitting (room - s.byteLength) t := by
  induction s generalizing room with
  | nil => rfl
  | cons c s ih =>
      rw [byteLength_cons] at h
      rw [List.cons_append, fitting_cons_of_fits (by omega), ih (by omega), byteLength_cons,
        Nat.sub_sub, List.cons_append]

/-- Behind a text that does not fit, nothing is stored. -/
theorem fitting_append_of_cut {room : Nat} {s : Text} (h : room < s.byteLength) (t : Text) :
    fitting room (s ++ t) = fitting room s := by
  induction s generalizing room with
  | nil => exact absurd h (Nat.not_lt_zero _)
  | cons c s ih =>
      rw [byteLength_cons] at h
      -- Either the text goes on behind the character, or it ends in front of it.
      by_cases hc : c.utf8Size ≤ room
      · rw [List.cons_append, fitting_cons_of_fits hc, fitting_cons_of_fits hc, ih (by omega)]
      · rw [List.cons_append, fitting_cons_of_wide (Nat.lt_of_not_le hc),
          fitting_cons_of_wide (Nat.lt_of_not_le hc)]

theorem fitting_of_fits {room : Nat} {t : Text} (h : t.byteLength ≤ room) : fitting room t = t := by
  have hwhole := fitting_append_of_fits h []
  rwa [List.append_nil, fitting_nil, List.append_nil] at hwhole

end Text

/-- Nothing of a call fits into `room` bytes: it sends nothing, or its first
    character is too wide. -/
def TooWide (room : Nat) (e : Event) : Prop :=
  ∀ c, e.content.head? = some c → room < c.utf8Size

/-- If a call is the first that does not fit as a whole, then nothing of any later
    call fits into the room that it leaves. -/
def Settled (capacity : Nat) (es : List Event) : Prop :=
  ∀ before cut after, es = before ++ cut :: after →
    (sentText before).byteLength ≤ capacity →
    capacity < (sentText (before ++ [cut])).byteLength →
    ∀ later ∈ after,
      TooWide (capacity - (Text.fitting capacity (sentText (before ++ [cut]))).byteLength) later

theorem tooWide_iff {room : Nat} {e : Event} :
    TooWide room e ↔ Text.fitting room e.content = [] := by
  unfold TooWide
  cases e.content with
  | nil => simp [Text.fitting]
  | cons c rest => simp [Text.fitting]

theorem settled_nil (capacity : Nat) : Settled capacity [] := by
  intro before cut after h
  exact absurd h.symm (List.append_ne_nil_of_right_ne_nil _ (List.cons_ne_nil _ _))

/-- If all fits, no call is cut. -/
theorem settled_of_fits {capacity : Nat} {es : List Event}
    (h : (sentText es).byteLength ≤ capacity) : Settled capacity es := by
  intro before cut after hsplit _ hcut
  -- What is sent up to the call that is cut is a part of what fits.
  rw [hsplit, List.append_cons, sentText, List.flatMap_append, Text.byteLength_append] at h
  exact absurd hcut (Nat.not_lt_of_le (Nat.le_of_add_right_le h))

/-- A call that fits leaves the others with less room. -/
theorem settled_cons_of_fits {capacity : Nat} {e : Event} (h : e.content.byteLength ≤ capacity)
    (rest : List Event) :
    Settled capacity (e :: rest) ↔ Settled (capacity - e.content.byteLength) rest := by
  -- What is left behind a call in the rest is what is left of it behind both.
  have hroom : ∀ before cut, capacity - (Text.fitting capacity
      (sentText (e :: before ++ [cut]))).byteLength =
      capacity - e.content.byteLength - (Text.fitting (capacity - e.content.byteLength)
        (sentText (before ++ [cut]))).byteLength := by
    intro before cut
    rw [List.cons_append, sentText_cons, Text.fitting_append_of_fits h, Text.byteLength_append,
      Nat.sub_sub]
  constructor
  · intro hall before cut after hsplit hfits hcut
    -- The call in front adds to both sides of the comparison.
    have hlater := hall (e :: before) cut after (by rw [hsplit, List.cons_append])
    rw [hroom, List.cons_append, sentText_cons, sentText_cons, Text.byteLength_append,
      Text.byteLength_append] at hlater
    exact hlater (by omega) (by omega)
  · intro hall before cut after hsplit hfits hcut
    cases before with
    | nil =>
        -- The call itself is not cut.
        rw [List.nil_append, List.cons.injEq] at hsplit
        rw [List.nil_append, sentText_cons, Text.byteLength_append, ← hsplit.1] at hcut
        have hnone : (sentText []).byteLength = 0 := rfl
        omega
    | cons first before =>
        rw [List.cons_append, List.cons.injEq] at hsplit
        rw [← hsplit.1, sentText_cons, Text.byteLength_append] at hfits
        rw [← hsplit.1, List.cons_append, sentText_cons, Text.byteLength_append] at hcut
        rw [← hsplit.1, hroom]
        exact hall before cut after hsplit.2 (by omega) (by omega)

/-- A call that does not fit is the first such call. -/
theorem settled_cons_of_cut {capacity : Nat} {e : Event} (h : capacity < e.content.byteLength)
    (rest : List Event) :
    Settled capacity (e :: rest) ↔ ∀ later ∈ rest,
      TooWide (capacity - (Text.fitting capacity e.content).byteLength) later := by
  have hsent : sentText ([] ++ [e]) = e.content := by
    rw [List.nil_append, sentText_cons]
    exact List.append_nil _
  constructor
  · intro hall
    have hlater := hall [] e rest rfl (Nat.zero_le _)
    rw [hsent] at hlater
    exact hlater h
  · intro hall before cut after hsplit hfits hcut
    cases before with
    | nil =>
        rw [List.nil_append, List.cons.injEq] at hsplit
        rw [← hsplit.1, ← hsplit.2, hsent]
        exact hall
    | cons first before =>
        -- The calls in front of another one would not have fitted.
        rw [List.cons_append, List.cons.injEq] at hsplit
        rw [← hsplit.1, sentText_cons, Text.byteLength_append] at hfits
        omega

namespace TextStore

variable {τ : Type} [TextStore τ] {capacity : Nat}

theorem pushWhile_cons (store : τ) (c : Char) (rest : Text) :
    pushWhile store (c :: rest) =
      if (push store c).2 then pushWhile (push store c).1 rest else (push store c).1 := by
  rw [pushWhile]
  rcases push store c with ⟨stored, taken⟩
  cases taken <;> rfl

theorem writeText_eq (store : τ) (t : Text) :
    Sink.writeText store t =
      if (append store t).2 then (append store t).1 else pushWhile (append store t).1 t := by
  simp only [Sink.writeText]
  rcases append store t with ⟨stored, taken⟩
  cases taken <;> rfl

/-- A run that is refused is stored up to the first character that is, by induction
    on the run. -/
theorem text_pushWhile (h : Bounded τ capacity) (store : τ) (t : Text) :
    text (pushWhile store t) =
      text store ++ Text.fitting (capacity - (text store).byteLength) t := by
  induction t generalizing store with
  | nil => exact (List.append_nil _).symm
  | cons c rest ih =>
      have hle := h.byteLength_le store
      have hlength : (text store ++ [c]).byteLength = (text store).byteLength + c.utf8Size := by
        rw [Text.byteLength_append, Text.byteLength_cons, Text.byteLength_nil, Nat.add_zero]
      rw [pushWhile_cons]
      by_cases hroom : (text store ++ [c]).byteLength ≤ capacity
      · -- The character is stored, and leaves the others with less room.
        rcases h.push_of_room store c hroom with ⟨htaken, htext⟩
        rw [if_pos htaken, ih, htext, Text.fitting_cons_of_fits (by omega), hlength, Nat.sub_sub,
          List.append_assoc, List.singleton_append]
      · rcases h.push_of_full store c (Nat.lt_of_not_le hroom) with ⟨hrefused, htext⟩
        rw [if_neg (by simp [hrefused]), htext, Text.fitting_cons_of_wide (by omega),
          List.append_nil]

/-- A character is stored as a run of one would be. -/
theorem text_push (h : Bounded τ capacity) (store : τ) (c : Char) :
    text (push store c).1 =
      text store ++ Text.fitting (capacity - (text store).byteLength) [c] := by
  rw [← text_pushWhile h store [c], pushWhile_cons]
  split <;> rfl

/-- A call stores what fits of it, however it is stored. -/
theorem text_accept (h : Bounded τ capacity) (store : τ) (e : Event) :
    text (Sink.accept store e) =
      text store ++ Text.fitting (capacity - (text store).byteLength) e.content := by
  cases e with
  | finish => exact (List.append_nil _).symm
  | char c => exact text_push h store c
  | text t =>
      rw [Sink.accept, writeText_eq, Event.content]
      by_cases hroom : (text store ++ t).byteLength ≤ capacity
      · rcases h.append_of_room store t hroom with ⟨htaken, htext⟩
        rw [Text.byteLength_append] at hroom
        rw [if_pos htaken, htext, Text.fitting_of_fits (by omega)]
      · -- The run as a whole is refused, and the text is as it was.
        rcases h.append_of_full store t (Nat.lt_of_not_le hroom) with ⟨hrefused, htext⟩
        rw [if_neg (by simp [hrefused]), text_pushWhile h, htext]

theorem text_accept_of_tooWide (h : Bounded τ capacity) {store : τ} {e : Event}
    (hwide : TooWide (capacity - (text store).byteLength) e) :
    text (Sink.accept store e) = text store := by
  rw [text_accept h, tooWide_iff.mp hwide, List.append_nil]

theorem text_isPrefix_acceptAll (h : Bounded τ capacity) (store : τ) (es : List Event) :
    text store <+: text (Sink.acceptAll store es) := by
  induction es generalizing store with
  | nil => exact List.prefix_refl _
  | cons e rest ih =>
      have hone : text store <+: text (Sink.accept store e) := by
        rw [text_accept h]
        exact List.prefix_append _ _
      exact hone.trans (ih _)

/-- Calls store nothing exactly if all of them are too wide. The first that is not
    adds a character, and what is stored stays. -/
theorem text_acceptAll_eq_self_iff (h : Bounded τ capacity) (store : τ) (es : List Event) :
    text (Sink.acceptAll store es) = text store ↔
      ∀ e ∈ es, TooWide (capacity - (text store).byteLength) e := by
  induction es generalizing store with
  | nil => simp [Sink.acceptAll]
  | cons e rest ih =>
      rw [List.forall_mem_cons, Sink.acceptAll_cons]
      by_cases hwide : TooWide (capacity - (text store).byteLength) e
      · -- The room that is left is the same behind the call.
        have hsame := text_accept_of_tooWide h hwide
        have hrest := ih (Sink.accept store e)
        rw [hsame] at hrest
        rw [hrest]
        exact ⟨fun hall => ⟨hwide, hall⟩, fun hall => hall.2⟩
      · refine iff_of_false (fun hsame => hwide ?_) (fun hall => hwide hall.1)
        -- What the call added would have to be gone again.
        have hstays := text_isPrefix_acceptAll h (Sink.accept store e) rest
        rw [hsame, text_accept h] at hstays
        have hnone := List.prefix_append_right_inj (text store) |>.mp
          (show text store ++ Text.fitting (capacity - (text store).byteLength) e.content <+:
              text store ++ [] by
            rwa [List.append_nil])
        exact tooWide_iff.mpr (List.prefix_nil.mp hnone)

/-- What calls store behind a text. It begins with what fits of all they send, and
    it is no more exactly if they are settled. By induction on the calls: each
    of them fits, or is the one that is cut. -/
theorem text_acceptAll (h : Bounded τ capacity) (store : τ) (es : List Event) :
    text store ++ Text.fitting (capacity - (text store).byteLength) (sentText es) <+:
        text (Sink.acceptAll store es) ∧
      (text (Sink.acceptAll store es) =
          text store ++ Text.fitting (capacity - (text store).byteLength) (sentText es) ↔
        Settled (capacity - (text store).byteLength) es) := by
  induction es generalizing store with
  | nil =>
      have hnone : Text.fitting (capacity - (text store).byteLength) (sentText []) = [] := rfl
      rw [hnone, List.append_nil]
      exact ⟨List.prefix_refl _, iff_of_true rfl (settled_nil _)⟩
  | cons e rest ih =>
      have hone := text_accept h store e
      rw [Sink.acceptAll_cons, sentText_cons]
      by_cases hfits : e.content.byteLength ≤ capacity - (text store).byteLength
      · -- All of the call is stored, and the others have less room.
        rw [Text.fitting_of_fits hfits] at hone
        have hroom : capacity - (text (Sink.accept store e)).byteLength =
            capacity - (text store).byteLength - e.content.byteLength := by
          rw [hone, Text.byteLength_append, Nat.sub_sub]
        rw [Text.fitting_append_of_fits hfits, settled_cons_of_fits hfits, ← hroom,
          ← List.append_assoc, ← hone]
        exact ih (Sink.accept store e)
      · -- The call is cut, and whatever the others store comes too late.
        have hcut := Nat.lt_of_not_le hfits
        have hroom : capacity - (text (Sink.accept store e)).byteLength =
            capacity - (text store).byteLength -
              (Text.fitting (capacity - (text store).byteLength) e.content).byteLength := by
          rw [hone, Text.byteLength_append, Nat.sub_sub]
        rw [Text.fitting_append_of_cut hcut, settled_cons_of_cut hcut, ← hroom, ← hone]
        exact ⟨text_isPrefix_acceptAll h _ rest, text_acceptAll_eq_self_iff h _ rest⟩

/-- A bounded text that was empty begins, after any calls, with the longest
    beginning of what they sent that has room in it. It is that beginning exactly
    if nothing fits any more behind the first call that was cut. -/
theorem longestFit_iff_settled (h : Bounded τ capacity) (es : List Event) :
    (∃ u, Text.LongestFit capacity (sentText es) u ∧
        u <+: text (Sink.acceptAll (empty : τ) es)) ∧
      (Text.LongestFit capacity (sentText es) (text (Sink.acceptAll (empty : τ) es)) ↔
        Settled capacity es) := by
  have hstored := text_acceptAll h empty es
  rw [h.text_empty, List.nil_append, Text.byteLength_nil, Nat.sub_zero] at hstored
  refine ⟨⟨_, Text.longestFit_fitting capacity (sentText es), hstored.1⟩, ?_⟩
  rw [Text.longestFit_iff]
  exact hstored.2

/-- A run is cut with one byte to spare, and another wide character is dropped
    behind it. -/
theorem longestFit_iff_settled_wide :
    Bounded (BoundedText 2) 2 ∧ Settled 2 [.text ['a', 'é'], .char 'é'] ∧
      Text.LongestFit 2 ['a', 'é', 'é']
        (text (Sink.acceptAll (empty : BoundedText 2) [.text ['a', 'é'], .char 'é'])) := by
  have hfit : Text.LongestFit 2 (sentText [.text ['a', 'é'], .char 'é'])
      (text (Sink.acceptAll (empty : BoundedText 2) [.text ['a', 'é'], .char 'é'])) :=
    Text.longestFit_iff.mpr (by decide)
  exact ⟨BoundedText.bounded 2, (longestFit_iff_settled (BoundedText.bounded 2) _).2.mp hfit, hfit⟩

/-- Where one byte is left a character of two is dropped, and the letter that is
    written next is stored. -/
theorem narrower_stored_later :
    ¬ (∀ (τ : Type) [TextStore τ] (capacity : Nat), Bounded τ capacity → ∀ es : List Event,
      .finish ∉ es →
        Text.LongestFit capacity (sentText es) (text (Sink.acceptAll (empty : τ) es))) := by
  intro h
  have hfit := h (BoundedText 2) 2 (BoundedText.bounded 2) [.char 'a', .char 'é', .char 'b']
    (by simp)
  have hbegins := hfit.begins
  revert hbegins
  decide

end TextStore

end Stencil
