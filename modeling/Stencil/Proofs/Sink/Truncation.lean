import Stencil.Proofs.Sink.Kept
import Stencil.Proofs.Utf8.Decoding
import Stencil.Sink.Writer

/-!
# Truncation

A bounded buffer drops what it has no room for, and one expects a prefix of the
output to be left. It is, as long as the buffer is full whenever it drops
something. Cutting a run fills the buffer. Dropping a character need not: a
wide character may be dropped with a few bytes to spare, and whatever is sent
next and is narrow enough is stored behind the gap.

So everything turns on the first character that is dropped with room to spare.
There is at most one such character before the rest of the output goes by, and
where it stands is a matter of the limit and of what is sent. The written bytes
are a prefix exactly if what follows it does no harm: characters that are too
wide as well, empty runs, and in the end perhaps a run that is cut and begins
with the same bytes as the character that was dropped.

## Main definitions

* `Harmless`: What follows a dropped character is stored as part of it or not
  at all.
* `Seamless`: No harm is done behind the first character dropped with room to
  spare.

## Theorems

* `keepAll_of_full`: A full buffer keeps nothing more.
* `keepAll_prefix_iff_harmless`: What is stored behind a gap.
* `keepAll_prefix_iff_seamless`: When a prefix is kept.
* `prefix_iff_seamless`: The same for both buffers, and for templates.
-/

namespace Stencil

/-- Nothing is stored that does not belong behind the kept bytes, when a
    character was dropped with `room` bytes to spare. -/
def Harmless (room : Nat) (dropped : Char) : List Event → Prop
  | [] => True
  | .finish :: rest => Harmless room dropped rest
  | .char c :: rest => room < c.utf8Size ∧ Harmless room dropped rest
  | .text t :: rest =>
    (t = [] ∧ Harmless room dropped rest) ∨
      t.bytes.take room = (String.utf8EncodeChar dropped).take room

/-- If a character is the first that is dropped with room to spare, what follows
    it is harmless. It is that character if all before it fits, and not with
    nothing to spare, and it does not fit behind that. -/
def Seamless (limit : Nat) (es : List Event) : Prop :=
  ∀ before dropped after, es = before ++ .char dropped :: after →
    (sentText before).byteLength < limit →
    limit < (sentText before).byteLength + dropped.utf8Size →
    Harmless (limit - (sentText before).byteLength) dropped after

theorem keep_isPrefix (limit : Nat) (kept : List UInt8) (e : Event) :
    kept <+: keep limit kept e := by
  cases e with
  | char c =>
      rw [keep]
      split
      · exact List.prefix_append _ _
      · exact List.prefix_refl _
  | text t => exact List.prefix_append _ _
  | finish => exact List.prefix_refl _

/-- What is kept stays. -/
theorem keepAll_isPrefix (limit : Nat) (kept : List UInt8) (es : List Event) :
    kept <+: keepAll limit kept es := by
  induction es generalizing kept with
  | nil => exact List.prefix_refl _
  | cons e rest ih => exact (keep_isPrefix limit kept e).trans (ih _)

/-- A full buffer keeps nothing more, every character being a byte at least. -/
theorem keepAll_of_full {limit : Nat} {kept : List UInt8} (h : limit ≤ kept.length)
    (es : List Event) : keepAll limit kept es = kept := by
  have hroom : limit - kept.length = 0 := Nat.sub_eq_zero_of_le h
  induction es with
  | nil => rfl
  | cons e rest ih =>
      have hkeep : keep limit kept e = kept := by
        cases e with
        | char c =>
            have hpos := c.utf8Size_pos
            rw [keep, if_neg (by omega)]
        | text t => rw [keep, hroom, List.take_zero, List.append_nil]
        | finish => rfl
      rw [keepAll_cons, hkeep, ih]

/-- Complete characters do not belong where a wider character was dropped. -/
theorem not_prefix_of_narrower {c d : Char} {rest more : List UInt8}
    (h : d.utf8Size < c.utf8Size) :
    ¬ String.utf8EncodeChar d ++ more <+: String.utf8EncodeChar c ++ rest := by
  intro hprefix
  have hd : String.utf8EncodeChar d <+: String.utf8EncodeChar c ++ rest :=
    (List.prefix_append _ _).trans hprefix
  -- Both begin the same bytes, so the shorter begins the longer.
  have hinner : String.utf8EncodeChar d <+: String.utf8EncodeChar c := by
    refine List.prefix_of_prefix_length_le hd (List.prefix_append _ _) ?_
    rw [String.length_utf8EncodeChar, String.length_utf8EncodeChar]
    omega
  have hle := Utf8.utf8Size_le_of_prefix hinner
  omega

/-- A run that is cut fills the gap with its first bytes. -/
theorem cut_prefix_iff {room : Nat} {c : Char} {new rest : List UInt8}
    (hnew : room ≤ new.length) (hroom : room < c.utf8Size) :
    new.take room <+: String.utf8EncodeChar c ++ rest ↔
      new.take room = (String.utf8EncodeChar c).take room := by
  have hlength : (new.take room).length = room := List.length_take_of_le hnew
  -- The gap is narrower than the character, so it holds bytes of the character only.
  rw [List.prefix_iff_eq_take, hlength, List.take_append_of_le_length]
  rw [String.length_utf8EncodeChar]
  omega

/-- What is stored behind a gap of `room` bytes, where a wider character was
    dropped, by induction on the calls that follow. -/
theorem keepAll_prefix_iff_harmless {limit room : Nat} {kept : List UInt8} {c : Char}
    (hlength : kept.length + room = limit) (hpos : 0 < room) (hroom : room < c.utf8Size)
    (rest : List UInt8) (es : List Event) :
    keepAll limit kept es <+: kept ++ (String.utf8EncodeChar c ++ rest) ↔ Harmless room c es := by
  have hfree : limit - kept.length = room := by omega
  induction es with
  | nil =>
      rw [Harmless, iff_true]
      exact List.prefix_append _ _
  | cons e es ih =>
      rw [keepAll_cons]
      cases e with
      | finish => exact ih
      | char d =>
          rw [Harmless, keep, hfree]
          by_cases hfits : d.utf8Size ≤ room
          · -- The character is stored, and it is narrower than the one dropped.
            rw [if_pos hfits]
            refine iff_of_false ?_ (fun h => by omega)
            intro hprefix
            have hd := (keepAll_isPrefix limit (kept ++ String.utf8EncodeChar d) es).trans hprefix
            rw [List.prefix_append_right_inj, ← List.append_nil (String.utf8EncodeChar d)] at hd
            exact not_prefix_of_narrower (by omega) hd
          · -- The character is dropped as well, and the gap stays what it was.
            rw [if_neg hfits]
            exact ⟨fun h => ⟨by omega, ih.mp h⟩, fun h => ih.mpr h.2⟩
      | text t =>
          rw [Harmless, keep, hfree]
          by_cases hcut : room ≤ t.bytes.length
          · -- The run is cut, and nothing is stored behind it.
            have hne : t ≠ [] := by
              rintro rfl
              rw [Text.bytes_nil, List.length_nil] at hcut
              omega
            have hfull : limit ≤ (kept ++ t.bytes.take room).length := by
              rw [List.length_append, List.length_take_of_le hcut]
              omega
            rw [keepAll_of_full hfull, List.prefix_append_right_inj, cut_prefix_iff hcut hroom]
            exact ⟨Or.inr, fun h => h.resolve_left (fun h => hne h.1)⟩
          · -- The gap is not filled, so the run cannot pass for a part of the character.
            have hshort : t.bytes.take room ≠ (String.utf8EncodeChar c).take room := by
              intro heq
              -- Equal beginnings would be of one length, and the run is too short for
              -- that.
              have hlengths := congrArg List.length heq
              rw [List.length_take, List.length_take, String.length_utf8EncodeChar] at hlengths
              omega
            rw [List.take_of_length_le (by omega : t.bytes.length ≤ room)] at hshort ⊢
            cases t with
            | nil =>
                rw [Text.bytes_nil, List.append_nil]
                exact ⟨fun h => Or.inl ⟨rfl, ih.mp h⟩, fun h => ih.mpr (h.resolve_right hshort).2⟩
            | cons d t =>
                -- The run is stored whole, and begins with a narrower character.
                refine iff_of_false ?_ (fun h => h.elim (fun h => absurd h.1 (List.cons_ne_nil _ _))
                  hshort)
                intro hprefix
                have hd := (keepAll_isPrefix limit (kept ++ Text.bytes (d :: t)) es).trans hprefix
                rw [List.prefix_append_right_inj, Text.bytes_cons] at hd
                rw [Text.bytes_cons, List.length_append, String.length_utf8EncodeChar] at hcut
                exact not_prefix_of_narrower (by omega) hd

theorem seamless_nil (limit : Nat) : Seamless limit [] := by
  intro before dropped after h
  exact absurd h.symm (List.append_ne_nil_of_right_ne_nil _ (List.cons_ne_nil _ _))

/-- A call that fits leaves the rest with less room. -/
theorem seamless_cons_of_fits {limit : Nat} {e : Event} (h : e.content.byteLength ≤ limit)
    (rest : List Event) :
    Seamless limit (e :: rest) ↔ Seamless (limit - e.content.byteLength) rest := by
  constructor
  -- Put in front, the call makes the sum and the limit larger by the same.
  · intro hall before dropped after hrest hlt hgt
    have hsplit := hall (e :: before) dropped after (by rw [hrest, List.cons_append])
    rw [sentText_cons, Text.byteLength_append] at hsplit
    rw [Nat.sub_sub]
    exact hsplit (by omega) (by omega)
  · intro hall before dropped after hsplit hlt hgt
    cases before with
    | nil =>
        -- The call is the dropped character itself, and it fits.
        rw [List.nil_append, List.cons.injEq] at hsplit
        rw [hsplit.1, Event.content, Text.byteLength_cons, Text.byteLength_nil] at h
        rw [sentText, List.flatMap_nil, Text.byteLength_nil] at hgt
        omega
    | cons first before =>
        rw [List.cons_append, List.cons.injEq] at hsplit
        rw [← hsplit.1, sentText_cons, Text.byteLength_append] at hlt hgt ⊢
        rw [← Nat.sub_sub]
        exact hall before dropped after hsplit.2 (by omega) (by omega)

/-- Behind a call that does not fit, nothing is the first to be dropped. -/
theorem seamless_cons_of_not_fits {limit : Nat} {e : Event} (h : limit < e.content.byteLength)
    (rest : List Event) :
    Seamless limit (e :: rest) ↔ ∀ c, e = .char c → 0 < limit → Harmless limit c rest := by
  constructor
  · rintro hall c rfl hpos
    exact hall [] c rest rfl hpos (by
      rw [Event.content, Text.byteLength_cons, Text.byteLength_nil] at h
      rw [sentText, List.flatMap_nil, Text.byteLength_nil]
      omega)
  · intro hall before dropped after hsplit hlt hgt
    cases before with
    | nil =>
        rw [List.nil_append, List.cons.injEq] at hsplit
        rw [← hsplit.2]
        exact hall dropped hsplit.1 hlt
    | cons first before =>
        -- The first call alone is more than there is room for.
        rw [List.cons_append, List.cons.injEq] at hsplit
        rw [← hsplit.1, sentText_cons, Text.byteLength_append] at hlt
        omega

/-- When a prefix is kept, behind a text that was kept whole, by induction on
    the calls: each of them fits, or fills the buffer, or leaves a gap. -/
theorem keepAll_prefix_iff_seamless {limit : Nat} {u : Text} (h : u.byteLength ≤ limit)
    (es : List Event) :
    keepAll limit u.bytes es <+: u.bytes ++ (sentText es).bytes ↔
      Seamless (limit - u.byteLength) es := by
  induction es generalizing u with
  | nil => exact iff_of_true (List.prefix_append _ _) (seamless_nil _)
  | cons e rest ih =>
      have hlength := Text.length_bytes u
      rw [keepAll_cons, sentText_cons, Text.bytes_append]
      by_cases hfits : e.content.byteLength ≤ limit - u.byteLength
      · -- The call fits, and what is kept is again a whole text.
        have hkeep : keep limit u.bytes e = (u ++ e.content).bytes := by
          rw [Text.bytes_append]
          cases e with
          | char c =>
              rw [Event.content, Text.byteLength_cons, Text.byteLength_nil] at hfits
              rw [keep, if_pos (by omega), Event.content, Text.bytes_cons, Text.bytes_nil,
                List.append_nil]
          | text t =>
              rw [Event.content] at hfits
              rw [keep, List.take_of_length_le (by rw [Text.length_bytes]; omega), Event.content]
          | finish => rw [keep, Event.content, Text.bytes_nil, List.append_nil]
        have hboth : (u ++ e.content).byteLength ≤ limit := by
          rw [Text.byteLength_append]
          omega
        rw [seamless_cons_of_fits hfits, Nat.sub_sub, ← Text.byteLength_append, ← ih hboth, hkeep,
          Text.bytes_append, List.append_assoc]
      · rw [seamless_cons_of_not_fits (by omega)]
        cases e with
        | finish => exact absurd (Nat.zero_le _) hfits
        | text t =>
            -- The run is cut, which fills the buffer with a beginning of it.
            rw [Event.content] at hfits
            have hcut : limit - u.bytes.length ≤ t.bytes.length := by
              rw [Text.length_bytes t]
              omega
            have hfull : limit ≤ (keep limit u.bytes (.text t)).length := by
              rw [keep, List.length_append, List.length_take_of_le hcut]
              omega
            rw [keepAll_of_full hfull]
            refine iff_of_true ?_ (fun c hc => absurd hc (by simp))
            rw [keep, List.prefix_append_right_inj]
            exact (List.take_prefix _ _).trans (List.prefix_append _ _)
        | char c =>
            rw [Event.content, Text.byteLength_cons, Text.byteLength_nil] at hfits
            have hkeep : keep limit u.bytes (.char c) = u.bytes := by
              rw [keep, if_neg (by omega)]
            rw [hkeep, Event.content, Text.bytes_cons, Text.bytes_nil, List.append_nil]
            -- The character is dropped, and leaves a gap unless the buffer is full.
            by_cases hpos : 0 < limit - u.byteLength
            · have hroom : u.bytes.length + (limit - u.byteLength) = limit := by omega
              rw [keepAll_prefix_iff_harmless hroom hpos (by omega)]
              exact ⟨fun h d hd _ => Event.char.inj hd ▸ h, fun h => h c rfl hpos⟩
            · rw [keepAll_of_full (by omega)]
              exact iff_of_true (List.prefix_append _ _) (fun _ _ h => absurd h hpos)

/-- A fresh buffer with a limit keeps a prefix, of the bytes and of the text,
    exactly if no harm is done behind a dropped character. -/
theorem fresh_prefix_iff_seamless (limit : Nat) (es : List Event) :
    (keepAll limit [] es <+: (sentText es).bytes ∧
      Utf8.validPrefix (keepAll limit [] es) <+: sentText es) ↔ Seamless limit es := by
  -- A fresh buffer keeps bytes behind the empty text.
  have hiff := keepAll_prefix_iff_seamless (u := []) (Nat.zero_le limit) es
  rw [Text.bytes_nil, List.nil_append, Text.byteLength_nil, Nat.sub_zero] at hiff
  rw [← hiff]
  exact ⟨fun h => h.1, fun h => ⟨h, Utf8.validPrefix_isPrefix h⟩⟩

/-- A writer without a limit has all that was sent. -/
theorem Writer.text_unlimited (es : List Event) :
    (Sink.acceptAll Writer.unlimited es).text = sentText es := by
  -- No call sets a limit, so none is ever refused.
  have hall : ∀ w : Writer, w.limit = none →
      (Sink.acceptAll w es).text = w.text ++ sentText es := by
    induction es with
    | nil => exact fun w _ => (List.append_nil _).symm
    | cons e rest ih =>
        intro w hw
        -- One call appends what it carries and sets no limit.
        have hone : (Sink.accept w e).limit = none ∧
            (Sink.accept w e).text = w.text ++ e.content := by
          rcases w with ⟨limit, text⟩
          simp only at hw
          cases e with
          | finish => exact ⟨hw, (List.append_nil _).symm⟩
          | char c => simp only [hw, Sink.accept, Sink.writeChar, append, admits, if_true,
              Event.content, and_self]
          | text t => simp only [hw, Sink.accept, Sink.writeText, append, admits, if_true,
              Event.content, and_self]
        rw [Sink.acceptAll_cons, ih (Sink.accept w e) hone.1, hone.2, sentText_cons,
          List.append_assoc]
  exact hall Writer.unlimited rfl

/-- A sink over a region keeps a prefix under the same condition, for the limit it was
    made with. -/
theorem RegionSink.prefix_iff (bytes : List UInt8) (terminated : Bool) (es : List Event) :
    ((Sink.acceptAll (RegionSink.withTerminator bytes terminated) es).bytes <+:
          (sentText es).bytes ∧
        (Sink.acceptAll (RegionSink.withTerminator bytes terminated) es).text <+: sentText es) ↔
      Seamless (RegionSink.withTerminator bytes terminated).limit es := by
  have htext : (Sink.acceptAll (RegionSink.withTerminator bytes terminated) es).text =
      Utf8.validPrefix (Sink.acceptAll (RegionSink.withTerminator bytes terminated) es).bytes :=
    rfl
  rw [htext, RegionSink.bytes_withTerminator]
  exact fresh_prefix_iff_seamless _ es

/-- So does a line buffer, whose last byte is reserved. -/
theorem LineBuffer.prefix_iff (capacity : Nat) (es : List Event) :
    ((Sink.acceptAll (LineBuffer.empty : LineBuffer capacity) es).bytes <+:
          (sentText es).bytes ∧
        (Sink.acceptAll (LineBuffer.empty : LineBuffer capacity) es).text <+: sentText es) ↔
      Seamless (capacity - 1) es := by
  have htext : (Sink.acceptAll (LineBuffer.empty : LineBuffer capacity) es).text =
      Utf8.validPrefix (Sink.acceptAll (LineBuffer.empty : LineBuffer capacity) es).bytes :=
    rfl
  rw [htext, LineBuffer.bytes_empty]
  exact fresh_prefix_iff_seamless _ es

/-- What a fresh bounded buffer keeps is a prefix of what was sent, as bytes and
    as text, exactly if no harm is done behind a dropped character. That is
    true of both buffers and of every order of calls, so it is true of what is
    left of a template beside what an unbounded writer receives. -/
theorem prefix_iff_seamless (bytes : List UInt8) (terminated : Bool) (capacity : Nat)
    (es : List Event) (template : Text) (args : Arguments) :
    (((Sink.acceptAll (RegionSink.withTerminator bytes terminated) es).bytes <+:
          (sentText es).bytes ∧
        (Sink.acceptAll (RegionSink.withTerminator bytes terminated) es).text <+: sentText es) ↔
      Seamless (RegionSink.withTerminator bytes terminated).limit es) ∧
    (((Sink.acceptAll (LineBuffer.empty : LineBuffer capacity) es).bytes <+:
          (sentText es).bytes ∧
        (Sink.acceptAll (LineBuffer.empty : LineBuffer capacity) es).text <+: sentText es) ↔
      Seamless (capacity - 1) es) ∧
    (((formatTo (RegionSink.withTerminator bytes terminated) template args).1.bytes <+:
          (formatTo Writer.unlimited template args).1.text.bytes ∧
        (formatTo (RegionSink.withTerminator bytes terminated) template args).1.text <+:
          (formatTo Writer.unlimited template args).1.text) ↔
      Seamless (RegionSink.withTerminator bytes terminated).limit (format template args).events) ∧
    (((formatTo (LineBuffer.empty : LineBuffer capacity) template args).1.bytes <+:
          (formatTo Writer.unlimited template args).1.text.bytes ∧
        (formatTo (LineBuffer.empty : LineBuffer capacity) template args).1.text <+:
          (formatTo Writer.unlimited template args).1.text) ↔
      Seamless (capacity - 1) (format template args).events) := by
  have hregion := RegionSink.prefix_iff bytes terminated
  have hline := LineBuffer.prefix_iff capacity
  -- A template is its calls, for the buffer and for the writer.
  simp only [formatTo, Rendering.into, Writer.text_unlimited]
  exact ⟨hregion es, hline es, hregion _, hline _⟩

/-- A character of two bytes is dropped where one byte is left, and the letter
    behind it takes its place. -/
theorem stored_behind_dropped :
    ¬ (∀ (bytes : List UInt8) (terminated : Bool) (es : List Event),
      (Sink.acceptAll (RegionSink.withTerminator bytes terminated) es).bytes <+:
          (sentText es).bytes ∧
        (Sink.acceptAll (RegionSink.withTerminator bytes terminated) es).text <+:
          sentText es) := by
  intro h
  have hprefix := (h [0, 0] false [.char 'a', .char 'é', .char 'b']).1
  revert hprefix
  decide

end Stencil
