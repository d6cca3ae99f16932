import Stencil.Proofs.Template.Grammar

/-!
# Templates Are Unambiguous

A template has at most one reading. Two readings of it are compared from the
left, and at each place one character settles which of them can go on: a brace
without a backslash before it ends a text, a closing brace ends a field, and a
colon ends the digits of a selector. So the first text is the same in both, and
the first field, and what is left is again one template with two readings.

## Theorems

* `Reading.lead_unique`: A text ends at its first brace that is not escaped.
* `Hole.inside_unique`: A field ends at its first closing brace.
* `Reading.reads_unique`: A template has at most one reading.
-/

namespace Stencil

/-- A text without some character ends where that character first stands. -/
theorem eq_of_append_cons_eq {s t : Text} {c : Char} {x y : Text} (hs : c ∉ s) (ht : c ∉ t)
    (h : s ++ c :: x = t ++ c :: y) : s = t ∧ x = y := by
  induction s generalizing t with
  | nil =>
      cases t with
      | nil => exact ⟨rfl, (List.cons.inj h).2⟩
      | cons d t => exact absurd ((List.cons.inj h).1 ▸ List.mem_cons_self) ht
  | cons d s ih =>
      cases t with
      | nil => exact absurd ((List.cons.inj h).1 ▸ List.mem_cons_self) hs
      | cons e t =>
          simp only [List.cons_append, List.cons.injEq] at h
          rcases ih (fun hmem => hs (List.mem_cons_of_mem d hmem))
            (fun hmem => ht (List.mem_cons_of_mem e hmem)) h.2 with ⟨hst, hxy⟩
          exact ⟨by rw [h.1, hst], hxy⟩

namespace Hole

/-- The inside of a field has no closing brace. -/
theorem close_not_mem_inside {h : Hole} (hh : h.WellFormed) : '}' ∉ h.inside := by
  rcases h with ⟨digits, spec⟩
  -- The closing brace is no digit.
  have hdigits : '}' ∉ digits := fun hmem => absurd (hh.digits _ hmem) (by decide)
  cases spec with
  | none => exact hdigits
  | some s =>
      simp only [inside, List.mem_append, List.mem_cons, not_or]
      exact ⟨hdigits, by decide, hh.spec s rfl⟩

/-- The inside of a field tells its digits from its spec: no digit is a colon. -/
theorem inside_injective {h k : Hole} (hh : h.WellFormed) (hk : k.WellFormed)
    (heq : h.inside = k.inside) : h = k := by
  rcases h with ⟨ds, s⟩
  rcases k with ⟨es, t⟩
  have hds : ':' ∉ ds := fun hmem => absurd (hh.digits _ hmem) (by decide)
  have hes : ':' ∉ es := fun hmem => absurd (hk.digits _ hmem) (by decide)
  cases s with
  | none =>
      cases t with
      | none => exact congrArg (fun x => Hole.mk x none) heq
      | some t =>
          -- The colon of one would be among the digits of the other.
          simp only [inside] at heq
          exact absurd (heq ▸ List.mem_append_right es List.mem_cons_self) hds
  | some s =>
      cases t with
      | none =>
          simp only [inside] at heq
          exact absurd (heq ▸ List.mem_append_right ds List.mem_cons_self) hes
      | some t =>
          rcases eq_of_append_cons_eq hds hes heq with ⟨hdigits, hspec⟩
          rw [hdigits, hspec]

/-- A field ends at its first closing brace, so it is settled by where it
    begins. -/
theorem inside_unique {h k : Hole} (hh : h.WellFormed) (hk : k.WellFormed) {x y : Text}
    (heq : h.inside ++ '}' :: x = k.inside ++ '}' :: y) : h = k ∧ x = y := by
  rcases eq_of_append_cons_eq (close_not_mem_inside hh) (close_not_mem_inside hk) heq with
    ⟨hinside, hrest⟩
  exact ⟨inside_injective hh hk hinside, hrest⟩

end Hole

namespace Reading

/-- The brace behind a text that leads up to it is not escaped, so an escaped text
    cannot have it. -/
theorem lead_not_escaped {s t : Text} (hs : Leads s) (ht : Escaped t) {x : Text}
    (h : t = s ++ '{' :: x) : False :=
  hs.open_end (ht s x h)

/-- Two texts that lead up to a brace are the same if they begin the same template.
    Otherwise one would have the brace of the other in it. -/
theorem lead_unique {s t : Text} (hs : Leads s) (ht : Leads t) {x y : Text}
    (h : s ++ '{' :: x = t ++ '{' :: y) : s = t ∧ x = y := by
  rcases List.append_eq_append_iff.mp h with ⟨front, hfront, hback⟩ | ⟨front, hfront, hback⟩
  · cases front with
    | nil => exact ⟨by rw [hfront, List.append_nil], (List.cons.inj hback).2⟩
    | cons c front =>
        -- The brace behind `s` would stand inside `t`.
        rw [List.cons_append, List.cons.injEq] at hback
        rw [← hback.1] at hfront
        exact (lead_not_escaped hs ht.escaped hfront).elim
  · cases front with
    | nil => exact ⟨by rw [hfront, List.append_nil], (List.cons.inj hback).2.symm⟩
    | cons c front =>
        rw [List.cons_append, List.cons.injEq] at hback
        rw [← hback.1] at hfront
        exact (lead_not_escaped ht hs.escaped hfront).elim

/-- The end of a template, where no field follows, is the end of no template
    that goes on with a field. -/
theorem ending_ne_field {last : Text} {broken : Option Text} (hlast : Escaped last)
    (hbroken : ∀ rest, broken = some rest → Leads last ∧ Broken rest)
    {text : Text} {hole : Hole} (htext : Leads text) (hhole : hole.WellFormed) {after : Text}
    (h : last ++ brokenSource broken = text ++ '{' :: (hole.inside ++ '}' :: after)) : False := by
  cases broken with
  | none =>
      rw [brokenSource, List.append_nil] at h
      exact lead_not_escaped htext hlast h
  | some rest =>
      -- Both braces are the first that is not escaped, so a field would begin.
      rcases hbroken rest rfl with ⟨hlead, hrest⟩
      exact hrest hole after hhole (lead_unique hlead htext h).2

/-- The end of a template is a text, or a text and a malformed field, in one way only.
    -/
theorem ending_unique {last last' : Text} {broken broken' : Option Text}
    (hlast : Escaped last) (hlast' : Escaped last')
    (hbroken : ∀ rest, broken = some rest → Leads last ∧ Broken rest)
    (hbroken' : ∀ rest, broken' = some rest → Leads last' ∧ Broken rest)
    (h : last ++ brokenSource broken = last' ++ brokenSource broken') :
    last = last' ∧ broken = broken' := by
  cases broken with
  | none =>
      cases broken' with
      | none => exact ⟨by simpa only [brokenSource, List.append_nil] using h, rfl⟩
      -- A malformed field would have its brace in the text without one.
      | some rest =>
          rw [brokenSource, List.append_nil, brokenSource] at h
          exact (lead_not_escaped (hbroken' rest rfl).1 hlast h).elim
  | some rest =>
      cases broken' with
      | none =>
          rw [brokenSource, brokenSource, List.append_nil] at h
          exact (lead_not_escaped (hbroken rest rfl).1 hlast' h.symm).elim
      | some rest' =>
          rcases lead_unique (hbroken rest rfl).1 (hbroken' rest' rfl).1 h with ⟨htext, hrest⟩
          exact ⟨htext, congrArg some hrest⟩

/-- Two readings of one template are the same reading, by induction on the
    fields of the first. -/
theorem reads_unique {r s : Reading} {template : Text} (hr : r.Reads template)
    (hs : s.Reads template) : r = s := by
  have hsource : r.source = s.source := hr.2.trans hs.2.symm
  rcases hr with ⟨hr, -⟩
  rcases hs with ⟨hs, -⟩
  rcases r with ⟨fields, last, broken⟩
  rcases s with ⟨fields', last', broken'⟩
  have hends : last = last' ∧ broken = broken' → fields = fields' →
      (⟨fields, last, broken⟩ : Reading) = ⟨fields', last', broken'⟩ := by
    rintro ⟨rfl, rfl⟩ rfl
    rfl
  suffices h : fields = fields' ∧ last = last' ∧ broken = broken' from hends h.2 h.1
  clear hends
  simp only [source] at hsource
  induction fields generalizing fields' with
  | nil =>
      cases fields' with
      | nil =>
          exact ⟨rfl, ending_unique hr.last hs.last hr.broken hs.broken hsource⟩
      | cons f fields' =>
          rcases f with ⟨text, hole⟩
          simp only [fieldsSource, List.nil_append, List.append_assoc, List.cons_append] at hsource
          exact (ending_ne_field hr.last hr.broken (hs.leads _ List.mem_cons_self)
            (hs.holes _ List.mem_cons_self) hsource).elim
  | cons f fields ih =>
      rcases f with ⟨text, hole⟩
      have hlead : Leads text := hr.leads (text, hole) List.mem_cons_self
      have hhole : hole.WellFormed := hr.holes (text, hole) List.mem_cons_self
      cases fields' with
      | nil =>
          simp only [fieldsSource, List.nil_append, List.append_assoc, List.cons_append] at hsource
          exact (ending_ne_field hs.last hs.broken hlead hhole hsource.symm).elim
      | cons f' fields' =>
          rcases f' with ⟨text', hole'⟩
          simp only [fieldsSource, List.append_assoc, List.cons_append] at hsource
          -- The texts agree, then the fields, and what is left is shorter.
          rcases lead_unique hlead (hs.leads (text', hole') List.mem_cons_self) hsource with
            ⟨htext, hinside⟩
          rcases Hole.inside_unique hhole (hs.holes (text', hole') List.mem_cons_self) hinside with
            ⟨hholes, hrest⟩
          have htail := ih
            ⟨fun g hg => hr.leads g (List.mem_cons_of_mem _ hg),
              fun g hg => hr.holes g (List.mem_cons_of_mem _ hg), hr.last, hr.broken⟩
            fields' ⟨fun g hg => hs.leads g (List.mem_cons_of_mem _ hg),
              fun g hg => hs.holes g (List.mem_cons_of_mem _ hg), hs.last, hs.broken⟩ hrest
          simp only at htext hholes
          exact ⟨by rw [htext, hholes, htail.1], htail.2⟩

end Reading

end Stencil
