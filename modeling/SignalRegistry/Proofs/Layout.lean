/-
# Signals lie within their layout

The cursor of a block moves past every signal, so the size of a layout is an
end that none of its signals runs past (`Layout.stop_le_size`). Everything that
is accepted is below 2^32 and keeps its value as it is stored.

Key definitions: `Placement.stop`, `LayoutCursor.Spans`.
Key theorems: `Layout.place_spans`, `Layout.stop_le_size`.
-/
import SignalRegistry.Layout

namespace SignalRegistry

/-- The address after the last byte of a signal. -/
def Placement.stop (p : Placement) : Nat := p.address.toNat + p.type.extent p.count.toNat

section Steps

variable {ε α β : Type}

/-- Two steps in a row have a result if both have one. -/
theorem bind_eq_ok {x : Except ε α} {f : α → Except ε β} {b : β} :
    (x >>= f) = .ok b ↔ ∃ a, x = .ok a ∧ f a = .ok b := by
  cases x with
  | error e =>
    refine iff_of_false (fun h => ?_) ?_
    · cases h
    · rintro ⟨a, ha, -⟩
      cases ha
  | ok a =>
    constructor
    · exact fun h => ⟨a, rfl, h⟩
    · rintro ⟨a', ha, hf⟩
      cases ha
      exact hf

/-- What every step preserves, a loop preserves. -/
theorem foldlM_preserves {P : β → Prop} {f : β → α → Except ε β}
    (hstep : ∀ b a b', P b → f b a = .ok b' → P b') {l : List α} {b b' : β} (hb : P b)
    (h : l.foldlM f b = .ok b') : P b' := by
  induction l generalizing b with
  | nil =>
    cases h
    exact hb
  | cons a l ih =>
    rw [List.foldlM_cons, bind_eq_ok] at h
    obtain ⟨b₁, ha, h⟩ := h
    exact ih (hstep b a b₁ hb ha) h

/-- Everything in the result of a partial map comes from an entry. -/
theorem exists_of_mem_filterMapM {f : α → Except ε (Option β)} {l : List α} {bs : List β}
    (h : l.filterMapM f = .ok bs) {b : β} (hb : b ∈ bs) : ∃ a ∈ l, f a = .ok (some b) := by
  -- The loop keeps what it has found in reverse.
  have hloop : ∀ (l : List α) (found bs : List β), List.filterMapM.loop f l found = .ok bs →
      b ∈ bs → b ∈ found ∨ ∃ a ∈ l, f a = .ok (some b) := by
    intro l
    induction l with
    | nil =>
      intro found bs h hb
      cases h
      exact Or.inl (List.mem_reverse.1 hb)
    | cons a l ih =>
      intro found bs h hb
      unfold List.filterMapM.loop at h
      obtain ⟨r, hr, h⟩ := bind_eq_ok.1 h
      cases r with
      | none =>
        rcases ih found bs h hb with hfound | ⟨a', ha', hf⟩
        · exact Or.inl hfound
        · exact Or.inr ⟨a', List.mem_cons_of_mem a ha', hf⟩
      | some b' =>
        rcases ih (b' :: found) bs h hb with hfound | ⟨a', ha', hf⟩
        · rcases List.mem_cons.1 hfound with rfl | hfound
          · exact Or.inr ⟨a, List.mem_cons_self, hr⟩
          · exact Or.inl hfound
        · exact Or.inr ⟨a', List.mem_cons_of_mem a ha', hf⟩
  rcases hloop l [] bs h hb with hnone | hsome
  · exact absurd hnone List.not_mem_nil
  · exact hsome

end Steps

/-- The size so far is past every signal so far, and not too large. -/
structure LayoutCursor.Spans (c : LayoutCursor) : Prop where
  within : ∀ p ∈ c.signals, p.stop ≤ c.size
  limited : c.size ≤ Layout.limit

namespace Layout

theorem toNat_ofNat_of_le {n : Nat} (h : n ≤ limit) : (UInt32.ofNat n).toNat = n := by
  have hlt : n < UInt32.size := by
    simp only [limit, UInt32.size] at h ⊢
    omega
  exact UInt32.toNat_ofNat_of_lt' hlt

theorem count_le {declared : Option Int} {n : Nat} (h : count declared = .ok n) : n ≤ limit := by
  unfold count at h
  by_cases hlimit : limit < (declared.getD 1).toNat
  · simp only [if_pos hlimit] at h
    cases h
  · simp only [if_neg hlimit] at h
    cases h
    have hone : 1 ≤ limit := by decide
    omega

/-- A signal that is laid out ends within the new size. -/
theorem place_spans {c c' : LayoutCursor} {d : Declaration} (hc : c.Spans)
    (h : place c d = .ok c') : c'.Spans := by
  unfold place at h
  obtain ⟨type, -, h⟩ := bind_eq_ok.1 h
  obtain ⟨start, -, h⟩ := bind_eq_ok.1 h
  obtain ⟨n, hn, h⟩ := bind_eq_ok.1 h
  obtain ⟨columns, -, h⟩ := bind_eq_ok.1 h
  by_cases hstop : limit < start + type.extent n
  · simp only [if_pos hstop] at h
    cases h
  simp only [if_neg hstop] at h
  cases h
  have hlimit : max c.size (start + type.extent n) ≤ limit := by
    have := hc.limited
    omega
  refine ⟨fun p hp => ?_, hlimit⟩
  show p.stop ≤ max c.size (start + type.extent n)
  rcases List.mem_append.1 hp with hp | hp
  · have := hc.within p hp
    omega
  · obtain ⟨name, -, rfl⟩ := Option.map_eq_some_iff.1 (Option.mem_toList.1 hp)
    have haddress : (UInt32.ofNat start).toNat = start := toNat_ofNat_of_le (by omega)
    have hcount : (UInt32.ofNat n).toNat = n := toNat_ofNat_of_le (count_le hn)
    show (UInt32.ofNat start).toNat + type.extent (UInt32.ofNat n).toNat ≤ _
    rw [haddress, hcount]
    omega

/-- Entering a group places nothing. -/
theorem enter_spans {c : LayoutCursor} (hc : c.Spans) (group : Option String) :
    (enter c group).Spans := by
  unfold enter
  split
  · exact ⟨hc.within, hc.limited⟩
  · exact hc

theorem ofGroups_stop_le {block : String} {groups : List SignalGroup} {l : Layout}
    (h : ofGroups block groups = .ok l) {p : Placement} (hp : p ∈ l.signals) :
    p.stop ≤ l.size.toNat := by
  unfold ofGroups at h
  obtain ⟨c, hc, h⟩ := bind_eq_ok.1 h
  cases h
  have hstart : LayoutCursor.Spans {} :=
    ⟨fun p hp => absurd hp List.not_mem_nil, Nat.zero_le limit⟩
  have hspans : c.Spans := by
    refine foldlM_preserves (fun c g c' hc hg => ?_) hstart hc
    exact foldlM_preserves (fun c d c' hc hd => place_spans hc hd) (enter_spans hc g.name) hg
  have hsize : (UInt32.ofNat c.size).toNat = c.size := toNat_ofNat_of_le hspans.limited
  show p.stop ≤ (UInt32.ofNat c.size).toNat
  rw [hsize]
  exact hspans.within p hp

/-- No signal in a table that can be read runs past the size of its layout. -/
theorem stop_le_size {content : Octets} {layouts : List Layout}
    (h : parse content = .ok layouts) {l : Layout} (hl : l ∈ layouts) {p : Placement}
    (hp : p ∈ l.signals) : p.stop ≤ l.size.toNat := by
  unfold parse at h
  obtain ⟨table, -, h⟩ := bind_eq_ok.1 h
  obtain ⟨b, -, hb⟩ := exists_of_mem_filterMapM h hl
  split at hb
  · rename_i name _
    cases hgroups : ofGroups name b.groups with
    | error e =>
      rw [hgroups] at hb
      cases hb
    | ok l' =>
      rw [hgroups] at hb
      cases hb
      exact ofGroups_stop_le hgroups hp
  · cases hb

end Layout
end SignalRegistry
