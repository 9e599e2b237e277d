/-
# An arena is a partial map from handles to items

The free list of an arena names each empty cell once and no other cell
(`Arena.WellFormed`), which every operation preserves. So an item put in gets a
handle that led nowhere (`get?_nextHandle`) and changes what no other handle
leads to (`get?_insert`). Two handles that lead to items are told apart by
their cells (`eq_of_index_eq`); hence there are no more of them than cells
(`length_le_size`), which bounds every walk along links.

No handle is given out twice (`Arena.Issued`) before a generation wraps, for
which 2^32 items must have been taken out.

Key definitions: `Arena.WellFormed`, `Arena.Issued`.
Key theorems: `Arena.get?_insert`, `Arena.length_le_size`, `Arena.Issued.insert`,
`Arena.Issued.erase`.
-/
import Mathlib.Data.List.Nodup
import Mathlib.Data.List.Perm.Subperm
import SignalRegistry.Arena

namespace SignalRegistry

/-- A list of items with distinct handles, around the item of one of them. -/
theorem exists_split {β : Type} {l : List (Handle × β)} (hn : (l.map Prod.fst).Nodup) {k : Handle}
    {x : β} (hm : (k, x) ∈ l) : ∃ es fs, l = es ++ (k, x) :: fs ∧
      l.filter (·.1 ≠ k) = es ++ fs ∧ (∀ e ∈ es, e.1 ≠ k) ∧ (∀ e ∈ fs, e.1 ≠ k) ∧
      (∀ e ∈ es, ∀ e' ∈ fs, e.1 ≠ e'.1) ∧ (es.map Prod.fst).Nodup ∧ (fs.map Prod.fst).Nodup := by
  obtain ⟨es, fs, rfl⟩ := List.append_of_mem hm
  simp only [List.map_append, List.map_cons, List.nodup_append, List.nodup_cons, List.mem_cons] at hn
  obtain ⟨hn₁, ⟨hk, hn₂⟩, hdis⟩ := hn
  have hes : ∀ e ∈ es, e.1 ≠ k := fun e he => hdis e.1 (List.mem_map_of_mem he) k (Or.inl rfl)
  have hfs : ∀ e ∈ fs, e.1 ≠ k := fun e he hek => hk (hek ▸ List.mem_map_of_mem he)
  refine ⟨es, fs, rfl, ?_, hes, hfs, fun e he e' he' => ?_, hn₁, hn₂⟩
  · rw [List.filter_append, List.filter_cons_of_neg (by simp),
      List.filter_eq_self.2 fun e he => by simpa using hes e he,
      List.filter_eq_self.2 fun e he => by simpa using hfs e he]
  · exact hdis e.1 (List.mem_map_of_mem he) e'.1 (Or.inr (List.mem_map_of_mem he'))

/-- The handles of some entries are those of these entries only. -/
theorem mem_handles_filter {β : Type} {l : List (Handle × β)} (hn : (l.map Prod.fst).Nodup)
    {p : Handle × β → Bool} {e : Handle × β} (he : e ∈ l) :
    e.1 ∈ (l.filter p).map Prod.fst ↔ p e = true := by
  rw [List.mem_map]
  constructor
  · rintro ⟨e', he', hk⟩
    rw [List.mem_filter] at he'
    exact List.inj_on_of_nodup_map hn he'.1 he hk ▸ he'.2
  · exact fun hp => ⟨e, List.mem_filter.2 ⟨he, hp⟩, rfl⟩

/-- Entries taken out by the handles of some of them are exactly these. -/
theorem filter_not_mem_handles {β : Type} {l : List (Handle × β)} (hn : (l.map Prod.fst).Nodup)
    (p : Handle × β → Bool) :
    l.filter (·.1 ∉ (l.filter p).map Prod.fst) = l.filter fun e => !p e := by
  refine List.filter_congr fun e he => ?_
  have hiff := mem_handles_filter (p := p) hn he
  cases hp : p e <;> simp [hiff, hp]

theorem nodup_map_append_singleton {β γ : Type} {f : β → γ} {l : List β} {b : β}
    (hn : (l.map f).Nodup) (hb : ∀ a ∈ l, f a ≠ f b) : ((l ++ [b]).map f).Nodup := by
  rw [List.map_append, List.map_singleton, List.nodup_append]
  refine ⟨hn, List.nodup_singleton _, fun c hc d hd => ?_⟩
  obtain ⟨a, ha, rfl⟩ := List.mem_map.1 hc
  rw [List.mem_singleton.1 hd]
  exact hb a ha

namespace Arena

variable {α : Type}

/-- The free list names each empty cell once, and no other cell. -/
structure WellFormed (a : Arena α) : Prop where
  nodup : a.free.Nodup
  mem_free : ∀ i, i ∈ a.free ↔ ∃ g, a.cells[i]? = some ⟨none, g⟩

theorem get?_eq_some_iff (a : Arena α) (h : Handle) (x : α) :
    a.get? h = some x ↔ a.cells[h.index]? = some ⟨some x, h.generation⟩ := by
  unfold get?
  cases hc : a.cells[h.index]? with
  | none => simp
  | some cell =>
    obtain ⟨content, g⟩ := cell
    by_cases hg : g = h.generation
    · simp [hg]
    · simp [hg]

/-- A cell leads to its item through one handle only. -/
theorem eq_of_index_eq {a : Arena α} {h k : Handle} {x y : α} (hx : a.get? h = some x)
    (hy : a.get? k = some y) (hi : h.index = k.index) : h = k := by
  rw [get?_eq_some_iff] at hx hy
  rw [hi, hy] at hx
  cases h; cases k
  simp_all

theorem index_lt_size {a : Arena α} {h : Handle} {x : α} (hx : a.get? h = some x) :
    h.index < a.cells.size := by
  rw [get?_eq_some_iff] at hx
  exact (Array.getElem?_eq_some_iff.1 hx).1

/-- Distinct handles that lead to items are no more than there are cells. -/
theorem length_le_size {a : Arena α} {hs : List Handle} (hn : hs.Nodup)
    (hl : ∀ h ∈ hs, ∃ x, a.get? h = some x) : hs.length ≤ a.cells.size := by
  have hinj : (hs.map Handle.index).Nodup := by
    refine List.Nodup.map_on (fun h hh k hk hi => ?_) hn
    obtain ⟨x, hx⟩ := hl h hh
    obtain ⟨y, hy⟩ := hl k hk
    exact eq_of_index_eq hx hy hi
  have hsub : hs.map Handle.index ⊆ List.range a.cells.size := by
    intro i hi
    obtain ⟨h, hh, rfl⟩ := List.mem_map.1 hi
    obtain ⟨x, hx⟩ := hl h hh
    exact List.mem_range.2 (index_lt_size hx)
  simpa using (List.subperm_of_subset hinj hsub).length_le

theorem wellFormed_empty : (empty : Arena α).WellFormed :=
  ⟨List.nodup_nil, fun i => by simp [empty]⟩

theorem wellFormed_modify {a : Arena α} (ha : a.WellFormed) (h : Handle) (f : α → α) :
    (a.modify h f).WellFormed := by
  unfold modify
  split
  · refine ⟨ha.nodup, fun i => ?_⟩
    rw [ha.mem_free i]
    simp only [Array.getElem?_modify]
    split
    · rename_i hi
      cases hc : a.cells[i]? with
      | none => simp
      | some cell => obtain ⟨content, g⟩ := cell; simp
    · rfl
  · exact ha

theorem modify_self {a : Arena α} {h : Handle} {f : α → α} {x : α}
    (hx : a.get? h = some x) (hf : f x = x) : a.modify h f = a := by
  have hcells : (a.cells.modify h.index fun cell =>
      { cell with content := cell.content.map f }) = a.cells := by
    refine Array.ext_getElem? fun i => ?_
    rw [Array.getElem?_modify]
    by_cases hi : h.index = i
    · rw [if_pos hi, ← hi, (a.get?_eq_some_iff h x).1 hx, Option.map_some, Option.map_some, hf]
    · rw [if_neg hi]
  unfold modify
  rw [hcells]
  exact ite_self a

theorem wellFormed_erase {a : Arena α} (ha : a.WellFormed) (h : Handle) : (a.erase h).WellFormed := by
  unfold erase
  split
  · rename_i hs
    obtain ⟨x, hx⟩ := Option.isSome_iff_exists.1 hs
    rw [get?_eq_some_iff] at hx
    refine ⟨List.nodup_cons.2 ⟨fun hm => ?_, ha.nodup⟩, fun i => ?_⟩
    · obtain ⟨g, hg⟩ := (ha.mem_free _).1 hm
      rw [hx] at hg
      simp at hg
    · simp only [List.mem_cons, Array.getElem?_modify]
      by_cases hi : h.index = i
      · subst hi; simp [hx]
      · simp only [if_neg hi, ← ha.mem_free i, or_iff_right_iff_imp]
        exact fun h' => absurd h'.symm hi
  · exact ha

/-- The next handle leads nowhere yet. -/
theorem get?_nextHandle {a : Arena α} (ha : a.WellFormed) : a.get? a.nextHandle = none := by
  rw [Option.eq_none_iff_forall_ne_some]
  intro x hx
  rw [get?_eq_some_iff] at hx
  unfold nextHandle at hx
  cases hf : a.free with
  | nil =>
    rw [hf] at hx
    simp at hx
  | cons i rest =>
    obtain ⟨g, hg⟩ := (ha.mem_free i).1 (by rw [hf]; exact List.mem_cons_self)
    rw [hf] at hx
    simp [hg] at hx

/-- An item put in is what its handle leads to, and all other handles lead
where they led. -/
theorem get?_insert {a : Arena α} (ha : a.WellFormed) (x : α) (k : Handle) :
    (a.insert x).1.get? k = if a.nextHandle = k then some x else a.get? k := by
  unfold insert nextHandle
  cases hf : a.free with
  | nil =>
    simp only [get?, Array.getElem?_push]
    by_cases hi : k.index = a.cells.size
    · simp only [hi, ↓reduceIte, Array.getElem?_eq_none (Nat.le_refl _)]
      by_cases hk : (⟨a.cells.size, 0⟩ : Handle) = k
      · subst hk; simp
      · have hg : ¬ (0 : UInt32) = k.generation := fun hg => hk (by cases k; simp_all)
        simp [hk, hg]
    · have hk : ¬ (⟨a.cells.size, 0⟩ : Handle) = k := by rintro rfl; exact hi rfl
      simp only [if_neg hi, if_neg hk]
  | cons i rest =>
    obtain ⟨g, hg⟩ := (ha.mem_free i).1 (by rw [hf]; exact List.mem_cons_self)
    simp only [get?, Array.getElem?_modify, hg, Option.map_some, Option.getD_some]
    by_cases hi : i = k.index
    · subst hi
      simp only [↓reduceIte, hg, Option.map_some]
      by_cases hk : (⟨k.index, g⟩ : Handle) = k
      · have hgk : g = k.generation := by rw [← hk]
        simp [hgk]
      · have hgk : ¬ g = k.generation := fun h' => hk (by cases k; simp_all)
        simp [hk, hgk]
    · have hk : ¬ (⟨i, g⟩ : Handle) = k := by rintro rfl; exact hi rfl
      simp only [if_neg hi, if_neg hk]

theorem wellFormed_insert {a : Arena α} (ha : a.WellFormed) (x : α) : (a.insert x).1.WellFormed := by
  unfold insert
  cases hf : a.free with
  | nil =>
    refine ⟨List.nodup_nil, fun i => ?_⟩
    have hn : ∀ g, a.cells[i]? ≠ some ⟨none, g⟩ := fun g hg => by
      have := (ha.mem_free i).2 ⟨g, hg⟩
      rw [hf] at this
      cases this
    simp only [List.tail_nil, List.not_mem_nil, Array.getElem?_push, false_iff, not_exists]
    intro g
    split
    · simp
    · exact hn g
  | cons i rest =>
    have hnd := ha.nodup
    rw [hf, List.nodup_cons] at hnd
    refine ⟨hnd.2, fun k => ?_⟩
    simp only [List.tail_cons, Array.getElem?_modify]
    by_cases hi : i = k
    · subst hi
      simp only [hnd.1, ↓reduceIte, false_iff, not_exists]
      intro g hg
      cases hc : a.cells[i]? <;> simp [hc] at hg
    · have := ha.mem_free k
      rw [hf, List.mem_cons] at this
      rw [if_neg hi, ← this]
      exact ⟨Or.inr, fun h' => h'.resolve_left (Ne.symm hi)⟩

@[simp] theorem insert_snd (a : Arena α) (x : α) : (a.insert x).2 = a.nextHandle := rfl

/-! ### Handles given out -/

/-- The generation of a cell. -/
def generation? (a : Arena α) (i : Nat) : Option UInt32 := a.cells[i]?.map Cell.generation

theorem generation?_of_get? {a : Arena α} {h : Handle} {x : α} (hx : a.get? h = some x) :
    a.generation? h.index = some h.generation := by
  rw [get?_eq_some_iff] at hx
  rw [generation?, hx, Option.map_some]

theorem generation?_modify (a : Arena α) (h : Handle) (f : α → α) (i : Nat) :
    (a.modify h f).generation? i = a.generation? i := by
  unfold generation? modify
  split
  · simp only [Array.getElem?_modify]
    split
    · cases a.cells[i]? <;> rfl
    · rfl
  · rfl

theorem generation?_erase (a : Arena α) (h : Handle) (i : Nat) :
    (a.erase h).generation? i =
      if (a.get? h).isSome ∧ h.index = i then (a.generation? i).map (· + 1) else a.generation? i := by
  unfold generation? erase
  by_cases hs : (a.get? h).isSome = true
  · simp only [hs, ↓reduceIte, true_and, Array.getElem?_modify]
    split
    · cases a.cells[i]? <;> rfl
    · rfl
  · simp only [hs, Bool.false_eq_true, ↓reduceIte, false_and]

/-- The cell that takes an item has the generation that its handle shows, whether
it is a new one or in use again. -/
theorem generation?_insert {a : Arena α} (ha : a.WellFormed) (x : α) (i : Nat) :
    (a.insert x).1.generation? i =
      if a.nextHandle.index = i then some a.nextHandle.generation else a.generation? i := by
  by_cases hi : a.nextHandle.index = i
  · subst hi
    rw [if_pos rfl]
    exact generation?_of_get? (x := x) (by rw [get?_insert ha, if_pos rfl])
  · rw [if_neg hi]
    unfold nextHandle at hi
    unfold generation? insert
    cases hf : a.free with
    | nil =>
      rw [hf] at hi
      simp only [Array.getElem?_push, if_neg (Ne.symm hi)]
    | cons k rest =>
      rw [hf] at hi
      simp only [Array.getElem?_modify, if_neg hi]

/-- The next handle shows the generation of its cell, and 0 if the cell is new. -/
theorem generation_nextHandle (a : Arena α) :
    a.nextHandle.generation = (a.generation? a.nextHandle.index).getD 0 := by
  unfold generation? nextHandle
  cases a.free with
  | nil => simp
  | cons i rest => rfl

/-- Each of these handles was given out once, and leads to an item or into a cell
whose generation has moved on since. No cell has given up more items than were
removed in all. -/
structure Issued (a : Arena α) (handles : List Handle) (removed : Nat) : Prop where
  nodup : handles.Nodup
  spent : ∀ h ∈ handles, (a.get? h).isSome = true ∨
    ∃ g, a.generation? h.index = some g ∧ h.generation < g
  old : ∀ i g, a.generation? i = some g → g.toNat ≤ removed

namespace Issued

variable {a : Arena α} {handles : List Handle} {removed : Nat}

theorem empty : (Arena.empty : Arena α).Issued [] 0 where
  nodup := List.nodup_nil
  spent _ hh := by cases hh
  old i g hg := by simp [generation?, Arena.empty] at hg

theorem modify (h : a.Issued handles removed) (k : Handle) (f : α → α) :
    (a.modify k f).Issued handles removed where
  nodup := h.nodup
  spent i hi := by
    rw [generation?_modify, get?_modify]
    refine (h.spent i hi).imp_left fun hs => ?_
    split <;> simpa using hs
  old i g hg := h.old i g (by rwa [generation?_modify] at hg)

/-- The next handle was not given out before. -/
theorem nextHandle_notMem (h : a.Issued handles removed) (ha : a.WellFormed) :
    a.nextHandle ∉ handles := by
  intro hm
  rcases h.spent _ hm with hs | ⟨g, hg, hlt⟩
  · rw [get?_nextHandle ha] at hs
    cases hs
  · rw [generation_nextHandle, hg, Option.getD_some] at hlt
    exact absurd hlt (UInt32.lt_irrefl g)

theorem insert (h : a.Issued handles removed) (ha : a.WellFormed) (x : α) :
    (a.insert x).1.Issued (handles ++ [(a.insert x).2]) removed where
  nodup := by
    rw [insert_snd, List.nodup_append]
    refine ⟨h.nodup, List.nodup_singleton _, fun i hi k hk => ?_⟩
    rw [List.mem_singleton.1 hk]
    rintro rfl
    exact h.nextHandle_notMem ha hi
  spent i hi := by
    rw [get?_insert ha, generation?_insert ha]
    rcases List.mem_append.1 hi with hi | hi
    · rcases h.spent i hi with hs | ⟨g, hg, hlt⟩
      · left
        split
        · rfl
        · exact hs
      · right
        refine ⟨g, ?_, hlt⟩
        split
        · rename_i hindex
          rw [generation_nextHandle, hindex, hg, Option.getD_some]
        · exact hg
    · rw [List.mem_singleton.1 hi, insert_snd, if_pos rfl]
      exact Or.inl rfl
  old i g hg := by
    rw [generation?_insert ha] at hg
    split at hg
    · rw [generation_nextHandle, Option.some_inj] at hg
      subst hg
      cases hn : a.generation? a.nextHandle.index with
      | none => exact Nat.zero_le removed
      | some g => exact h.old _ g hn
    · exact h.old i g hg

/-- Taking an item out moves the generation of its cell on; it does not wrap
while fewer than 2^32 items were removed. -/
theorem erase (h : a.Issued handles removed) {k : Handle} (hk : (a.get? k).isSome = true)
    (hlt : removed + 1 < UInt32.size) : (a.erase k).Issued handles (removed + 1) := by
  have hnext : ∀ {i g}, a.generation? i = some g → (g + 1).toNat = g.toNat + 1 := by
    intro i g hg
    have hle := h.old i g hg
    rw [UInt32.toNat_add, UInt32.toNat_one]
    show (g.toNat + 1) % UInt32.size = g.toNat + 1
    exact Nat.mod_eq_of_lt (by omega)
  refine ⟨h.nodup, fun i hi => ?_, fun i g hg => ?_⟩
  · rw [generation?_erase, get?_erase]
    by_cases hki : k = i
    · subst hki
      obtain ⟨x, hx⟩ := Option.isSome_iff_exists.1 hk
      have hg := generation?_of_get? hx
      have hsucc := hnext hg
      refine Or.inr ⟨k.generation + 1, ?_, UInt32.lt_iff_toNat_lt.2 (by omega)⟩
      rw [if_pos ⟨hk, rfl⟩, hg, Option.map_some]
    · rw [if_neg hki]
      refine (h.spent i hi).imp_right ?_
      rintro ⟨g, hg, hlt⟩
      have hsucc := hnext hg
      rw [UInt32.lt_iff_toNat_lt] at hlt
      split
      · exact ⟨g + 1, by rw [hg, Option.map_some], UInt32.lt_iff_toNat_lt.2 (by omega)⟩
      · exact ⟨g, hg, UInt32.lt_iff_toNat_lt.2 hlt⟩
  · rw [generation?_erase] at hg
    split at hg
    · obtain ⟨g', hg', rfl⟩ := Option.map_eq_some_iff.1 hg
      have hle := h.old i g' hg'
      have hsucc := hnext hg'
      omega
    · have hle := h.old i g hg
      omega

end Issued
end Arena
end SignalRegistry
