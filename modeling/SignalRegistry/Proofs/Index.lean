/-
# An index is a family of ordered lists

The items of each bucket form one chain through the arena, from the head of
the bucket to an item without a next one (`Segment`). An index holds a family
of lists if the chain of each bucket is its list, every item lies in the bucket
of its key and there are no others (`Index.Holds`). The lists are then what the
walks along the chains give (`Holds.bucket_eq`), an insertion appends to one of
them (`holds_insert`) and a removal takes one entry out (`holds_erase`).

Where only the items matter, an index is a map from handles to items: each
operation has its equation for `get?`.

Key definitions: `Segment`, `Index.Holds`, `Index.WellFormed`, `Index.Separates`.
Key theorems: `Index.holds_insert`, `Index.holds_erase`, `Index.mem_toList`,
`Index.get?_insert`, `Index.get?_erase`, `Index.get?_eraseWhere`.
-/
import Mathlib.Algebra.BigOperators.Group.Finset.Basic
import Mathlib.Data.Fintype.Basic
import Mathlib.Data.List.FinRange
import SignalRegistry.Index
import SignalRegistry.Proofs.Arena

namespace SignalRegistry

variable {α : Type}

/-! ### Chains -/

/-- The chain from a handle to `after` holds exactly these items, in order. -/
def Segment (a : Arena (Link α)) (after : Option Handle) : Option Handle → List (Handle × α) → Prop
  | first, [] => first = after
  | first, (h, x) :: rest =>
    first = some h ∧ ∃ next, a.get? h = some ⟨x, next⟩ ∧ Segment a after next rest

namespace Segment

variable {a b : Arena (Link α)}

theorem append (after : Option Handle) (es fs : List (Handle × α)) (first : Option Handle) :
    Segment a after first (es ++ fs) ↔ ∃ mid, Segment a mid first es ∧ Segment a after mid fs := by
  induction es generalizing first with
  | nil => simp [Segment]
  | cons e es ih =>
    simp only [List.cons_append, Segment, ih]
    constructor
    · rintro ⟨hf, next, hg, mid, he, hs⟩
      exact ⟨mid, ⟨hf, next, hg, he⟩, hs⟩
    · rintro ⟨mid, ⟨hf, next, hg, he⟩, hs⟩
      exact ⟨hf, next, hg, mid, he, hs⟩

theorem get? {after first : Option Handle} {es : List (Handle × α)} (hs : Segment a after first es) :
    ∀ e ∈ es, ∃ next, a.get? e.1 = some ⟨e.2, next⟩ := by
  induction es generalizing first with
  | nil =>
    intro e he
    cases he
  | cons e es ih =>
    obtain ⟨-, next, hg, hrest⟩ := hs
    intro e' he'
    rcases List.mem_cons.1 he' with rfl | hmem
    · exact ⟨next, hg⟩
    · exact ih hrest e' hmem

/-- A chain depends on its own items only. -/
theorem congr {after first : Option Handle} {es : List (Handle × α)} (hs : Segment a after first es)
    (heq : ∀ e ∈ es, b.get? e.1 = a.get? e.1) : Segment b after first es := by
  induction es generalizing first with
  | nil => exact hs
  | cons e es ih =>
    obtain ⟨hf, next, hg, hrest⟩ := hs
    have hhead : b.get? e.1 = some ⟨e.2, next⟩ := by rw [heq e List.mem_cons_self, hg]
    have htail := ih hrest fun e' he' => heq e' (List.mem_cons_of_mem e he')
    exact ⟨hf, next, hhead, htail⟩

/-- A walk with fuel for every item finds them all. -/
theorem walk_eq {first : Option Handle} {es : List (Handle × α)} {fuel : Nat}
    (hs : Segment a none first es) (hl : es.length ≤ fuel) : walk a fuel first = es := by
  induction es generalizing first fuel with
  | nil =>
    obtain rfl : first = none := hs
    cases fuel <;> rfl
  | cons e es ih =>
    obtain ⟨rfl, next, hg, hrest⟩ := hs
    rw [List.length_cons] at hl
    cases fuel with
    | zero => omega
    | succ fuel =>
      have htail : walk a fuel next = es := ih hrest (by omega)
      simp only [walk, hg, htail]

/-- A chain that leads to nothing begins with its first item. -/
theorem first_eq {first : Option Handle} {es : List (Handle × α)} (hs : Segment a none first es) :
    first = es.head?.map Prod.fst := by
  cases es with
  | nil => exact hs
  | cons e es => exact hs.1

/-- The link of an item leads to the rest of the chain after it. -/
theorem next_of_getElem? {first : Option Handle} {es : List (Handle × α)} {n : Nat} {e : Handle × α}
    (hs : Segment a none first es) (he : es[n]? = some e) :
    ∃ next, a.get? e.1 = some ⟨e.2, next⟩ ∧ Segment a none next (es.drop (n + 1)) := by
  have hsplit : es = es.take n ++ e :: es.drop (n + 1) := by
    obtain ⟨hlt, rfl⟩ := List.getElem?_eq_some_iff.1 he
    rw [← List.drop_eq_getElem_cons hlt, List.take_append_drop]
  rw [hsplit] at hs
  obtain ⟨mid, -, -, next, hg, hrest⟩ := (append none _ _ _).1 hs
  exact ⟨next, hg, hrest⟩

/-- The items of a chain change with those of the arena. -/
theorem map {f : Handle × α → α} {after first : Option Handle} {es : List (Handle × α)}
    (hs : Segment a after first es) (heq : ∀ e ∈ es, b.get? e.1 =
      (a.get? e.1).map fun link => { link with item := f (e.1, link.item) }) :
    Segment b after first (es.map fun e => (e.1, f e)) := by
  induction es generalizing first with
  | nil => exact hs
  | cons e es ih =>
    obtain ⟨hf, next, hg, hrest⟩ := hs
    have hhead : b.get? e.1 = some ⟨f e, next⟩ := by
      rw [heq e List.mem_cons_self, hg, Option.map_some]
    have htail := ih hrest fun e' he' => heq e' (List.mem_cons_of_mem e he')
    exact ⟨hf, next, hhead, htail⟩

end Segment

namespace Index

variable {buckets : Nat}

@[simp] theorem get?_empty (k : Handle) : (empty : Index α buckets).get? k = none := by
  simp [get?, empty]

theorem get?_modify (t : Index α buckets) (h k : Handle) (f : α → α) :
    (t.modify h f).get? k = if h = k then (t.get? k).map f else t.get? k := by
  unfold get? modify
  rw [Arena.get?_modify]
  split
  · simp [Function.comp_def]
  · rfl

theorem toList_eq (t : Index α buckets) : t.toList = (List.finRange buckets).flatMap t.bucket := by
  have hl : t.heads.toList = (List.finRange buckets).map fun b => t.head b := by
    refine List.ext_getElem (by simp) fun i hi hi' => ?_
    simp [head]
  unfold toList bucket
  rw [hl, List.flatMap_map]

/-- No two items of the index agree in `f`. -/
def Separates {β : Type} (t : Index α buckets) (f : α → β) : Prop :=
  ∀ h k x y, t.get? h = some x → t.get? k = some y → f x = f y → h = k

namespace Separates

variable {β : Type} {t t' : Index α buckets} {f : α → β}

theorem empty : (Index.empty : Index α buckets).Separates f := by
  intro h k x y hx
  rw [get?_empty] at hx
  cases hx

/-- Fewer items are told apart as well, and changes are good that keep `f`. -/
theorem mono (hs : t.Separates f)
    (hle : ∀ k y, t'.get? k = some y → ∃ x, t.get? k = some x ∧ f x = f y) : t'.Separates f := by
  intro h k x y hx hy hf
  obtain ⟨x', hx', hfx⟩ := hle h x hx
  obtain ⟨y', hy', hfy⟩ := hle k y hy
  exact hs h k x' y' hx' hy' (by rw [hfx, hfy, hf])

end Separates

/-! ### What an index holds -/

theorem arena_linkAfter (t : Index α buckets) (b : Fin buckets) (last next : Option Handle)
    (k : Handle) : (t.linkAfter b last next).arena.get? k =
      if last = some k then (t.arena.get? k).map fun link => { link with next := next }
      else t.arena.get? k := by
  cases last with
  | none => simp [linkAfter]
  | some h => simp [linkAfter, Arena.get?_modify]

theorem head_linkAfter (t : Index α buckets) (b b' : Fin buckets) (last next : Option Handle) :
    (t.linkAfter b last next).head b' =
      if last = none ∧ b = b' then next else t.head b' := by
  cases last with
  | none => simp only [linkAfter, head, Fin.getElem_fin, Vector.getElem_set, Fin.ext_iff, true_and]
  | some h => simp [linkAfter, head]

/-- Links say nothing of the items. -/
theorem get?_linkAfter (t : Index α buckets) (b : Fin buckets) (last next : Option Handle)
    (k : Handle) : (t.linkAfter b last next).get? k = t.get? k := by
  unfold get?
  rw [arena_linkAfter]
  split
  · simp [Function.comp_def]
  · rfl

theorem size_linkAfter (t : Index α buckets) (b : Fin buckets) (last next : Option Handle) :
    (t.linkAfter b last next).size = t.size := by
  unfold linkAfter; split <;> rfl

theorem wellFormed_linkAfter {t : Index α buckets} (h : t.arena.WellFormed) (b : Fin buckets)
    (last next : Option Handle) : (t.linkAfter b last next).arena.WellFormed := by
  unfold linkAfter
  split
  · exact Arena.wellFormed_modify h _ _
  · exact h

/-- Linking after the last of some items changes no other item. -/
theorem arena_linkAfter_of_ne (t : Index α buckets) (b : Fin buckets) {es : List (Handle × α)}
    (next : Option Handle) {k : Handle} (hk : ∀ e ∈ es, e.1 ≠ k) :
    (t.linkAfter b (es.getLast?.map Prod.fst) next).arena.get? k = t.arena.get? k := by
  rw [arena_linkAfter, if_neg]
  intro hl
  obtain ⟨e, he, hek⟩ := Option.map_eq_some_iff.1 hl
  exact hk e (List.mem_of_getLast? he) hek

/-- Linking after the last item of a chain leads the chain to the new place. -/
theorem segment_linkAfter {t : Index α buckets} {b : Fin buckets} {mid : Option Handle}
    {es : List (Handle × α)} (hs : Segment t.arena mid (t.head b) es) (hn : (es.map Prod.fst).Nodup)
    (next : Option Handle) :
    Segment (t.linkAfter b (es.getLast?.map Prod.fst) next).arena next
      ((t.linkAfter b (es.getLast?.map Prod.fst) next).head b) es := by
  rw [head_linkAfter]
  rcases List.eq_nil_or_concat es with rfl | ⟨es, ⟨k, x⟩, rfl⟩
  · exact if_pos ⟨rfl, rfl⟩
  · rw [if_neg (by simp)]
    simp only [List.concat_eq_append, List.map_append, List.map_cons, List.map_nil,
      List.nodup_append, List.getLast?_append, List.getLast?_singleton, Option.some_or,
      Option.map_some] at hs hn ⊢
    obtain ⟨m, he, hf, _, hg, _⟩ := (Segment.append mid es [(k, x)] _).1 hs
    refine (Segment.append next es [(k, x)] _).2 ⟨m, he.congr fun e hm => ?_, hf, next, ?_, rfl⟩
    · have hne : k ≠ e.1 := fun h =>
        hn.2.2 e.1 (List.mem_map_of_mem hm) k (List.mem_singleton_self k) h.symm
      rw [arena_linkAfter, if_neg (by simpa using hne)]
    · rw [arena_linkAfter, if_pos rfl, hg, Option.map_some]

/-- A chain around an item closes up when its last item before is linked to the
next one and the item's cell is given up. -/
theorem segment_unlink {t : Index α buckets} {b : Fin buckets} {es fs : List (Handle × α)}
    {k : Handle} {link : Link α}
    (hs : Segment t.arena none (t.head b) (es ++ (k, link.item) :: fs))
    (hg : t.arena.get? k = some link) (hn : (es.map Prod.fst).Nodup) (hes : ∀ e ∈ es, e.1 ≠ k)
    (hfs : ∀ e ∈ fs, e.1 ≠ k) (hdis : ∀ e ∈ es, ∀ e' ∈ fs, e.1 ≠ e'.1) :
    Segment ((t.linkAfter b (es.getLast?.map Prod.fst) link.next).arena.erase k) none
      ((t.linkAfter b (es.getLast?.map Prod.fst) link.next).head b) (es ++ fs) := by
  obtain ⟨mid, he, hf, next, hg', hfs'⟩ := (Segment.append none _ _ _).1 hs
  rw [hg, Option.some_inj] at hg'
  obtain rfl : next = link.next := by rw [hg']
  have hleft := segment_linkAfter he hn link.next
  refine (Segment.append none _ _ _).2 ⟨link.next, hleft.congr fun e hm => ?_,
    hfs'.congr fun e hm => ?_⟩
  · rw [Arena.get?_erase, if_neg (hes e hm).symm]
  · rw [Arena.get?_erase, if_neg (hfs e hm).symm]
    exact arena_linkAfter_of_ne t b _ fun e' he' => hdis e' he' e hm

variable [HasKey α] [Spreads buckets]

/-- The chain of each bucket is its list, the items lie in the buckets of
their keys, and all items are in the lists. -/
structure Holds (t : Index α buckets) (c : Fin buckets → List (Handle × α)) : Prop where
  arena : t.arena.WellFormed
  chain : ∀ b, Segment t.arena none (t.head b) (c b)
  nodup : ∀ b, ((c b).map Prod.fst).Nodup
  home : ∀ b, ∀ e ∈ c b, bucketFor buckets (HasKey.key e.2) = b
  covers : ∀ k x, t.get? k = some x → ∃ b, (k, x) ∈ c b
  size : t.size = ∑ b, (c b).length

/-- The index holds what its walks find. -/
def WellFormed (t : Index α buckets) : Prop := t.Holds t.bucket

namespace Holds

variable {t : Index α buckets} {c : Fin buckets → List (Handle × α)}

theorem length_le (h : t.Holds c) (b : Fin buckets) : (c b).length ≤ t.arena.cells.size := by
  have hl : ∀ k ∈ (c b).map Prod.fst, ∃ x, t.arena.get? k = some x := by
    intro k hk
    obtain ⟨e, he, rfl⟩ := List.mem_map.1 hk
    obtain ⟨next, hg⟩ := (h.chain b).get? e he
    exact ⟨_, hg⟩
  simpa using Arena.length_le_size (h.nodup b) hl

/-- The walks find the lists. -/
theorem bucket_eq (h : t.Holds c) : t.bucket = c :=
  funext fun b => (h.chain b).walk_eq (h.length_le b)

theorem wellFormed (h : t.Holds c) : t.WellFormed := by
  unfold WellFormed
  rw [h.bucket_eq]
  exact h

theorem toList_eq (h : t.Holds c) : t.toList = (List.finRange buckets).flatMap c := by
  rw [Index.toList_eq, h.bucket_eq]

theorem get?_of_mem (h : t.Holds c) {b : Fin buckets} {e : Handle × α} (he : e ∈ c b) :
    t.get? e.1 = some e.2 := by
  obtain ⟨next, hg⟩ := (h.chain b).get? e he
  simp [Index.get?, hg]

/-- An item is in the list of its key's bucket. -/
theorem mem_iff (h : t.Holds c) (k : Handle) (x : α) (b : Fin buckets) :
    (k, x) ∈ c b ↔ t.get? k = some x ∧ bucketFor buckets (HasKey.key x) = b := by
  constructor
  · intro hm
    exact ⟨h.get?_of_mem hm, h.home b (k, x) hm⟩
  · rintro ⟨hg, hb⟩
    obtain ⟨b', hm⟩ := h.covers k x hg
    have hb' := h.home b' (k, x) hm
    rw [← hb, hb']
    exact hm

/-- No handle is in two lists. -/
theorem bucket_unique (h : t.Holds c) {b b' : Fin buckets} {e e' : Handle × α} (he : e ∈ c b)
    (he' : e' ∈ c b') (hk : e.1 = e'.1) : b = b' := by
  have h1 := h.get?_of_mem he
  rw [hk, h.get?_of_mem he', Option.some_inj] at h1
  rw [← h.home b e he, ← h.home b' e' he', h1]

/-- An operation that works on one bucket changes the list of that bucket. -/
theorem update (h : t.Holds c) {t' : Index α buckets} {b₀ : Fin buckets} {l : List (Handle × α)}
    (arena : t'.arena.WellFormed) (chain : Segment t'.arena none (t'.head b₀) l)
    (head : ∀ b, b₀ ≠ b → t'.head b = t.head b)
    (frame : ∀ b, b₀ ≠ b → ∀ e ∈ c b, t'.arena.get? e.1 = t.arena.get? e.1)
    (nodup : (l.map Prod.fst).Nodup) (home : ∀ e ∈ l, bucketFor buckets (HasKey.key e.2) = b₀)
    (covers : ∀ k x, t'.get? k = some x → (k, x) ∈ l ∨ (t.get? k = some x ∧ (k, x) ∉ c b₀))
    (size : t'.size + (c b₀).length = t.size + l.length) : t'.Holds (Function.update c b₀ l) where
  arena := arena
  chain b := by
    by_cases hb : b₀ = b
    · subst hb; rw [Function.update_self]; exact chain
    · rw [Function.update_of_ne (Ne.symm hb), head b hb]
      exact (h.chain b).congr (frame b hb)
  nodup b := by
    by_cases hb : b₀ = b
    · subst hb; rw [Function.update_self]; exact nodup
    · rw [Function.update_of_ne (Ne.symm hb)]; exact h.nodup b
  home b := by
    by_cases hb : b₀ = b
    · subst hb; rw [Function.update_self]; exact home
    · rw [Function.update_of_ne (Ne.symm hb)]; exact h.home b
  covers k x hx := by
    rcases covers k x hx with hm | ⟨hx, hm⟩
    · exact ⟨b₀, by rwa [Function.update_self]⟩
    · obtain ⟨b, hb⟩ := h.covers k x hx
      have hne : b ≠ b₀ := by rintro rfl; exact hm hb
      exact ⟨b, by rwa [Function.update_of_ne hne]⟩
  size := by
    have hold := Finset.add_sum_erase Finset.univ (fun b => (c b).length) (Finset.mem_univ b₀)
    have hnew := Finset.add_sum_erase Finset.univ (fun b => (Function.update c b₀ l b).length)
      (Finset.mem_univ b₀)
    have hrest : ∑ b ∈ Finset.univ.erase b₀, (Function.update c b₀ l b).length =
        ∑ b ∈ Finset.univ.erase b₀, (c b).length :=
      Finset.sum_congr rfl fun b hb => by rw [Function.update_of_ne (Finset.ne_of_mem_erase hb)]
    have hsize := h.size
    simp only [Function.update_self] at hnew
    omega

end Holds

/-! ### Operations on the lists -/

theorem holds_empty : (empty : Index α buckets).Holds fun _ => [] where
  arena := Arena.wellFormed_empty
  chain b := by simp [Segment, empty, head]
  nodup _ := List.nodup_nil
  home _ _ he := by cases he
  covers k x hx := by simp [get?, empty] at hx
  size := by simp [empty]

theorem toList_empty : (empty : Index α buckets).toList = [] := by
  rw [holds_empty.toList_eq]
  simp

theorem items_empty : (empty : Index α buckets).items = [] := congrArg (List.map Prod.snd) toList_empty

/-- An insertion appends to the list of the item's bucket. -/
theorem holds_insert {t : Index α buckets} {c : Fin buckets → List (Handle × α)} (h : t.Holds c)
    (x : α) : (t.insert x).1.Holds (Function.update c (bucketFor buckets (HasKey.key x))
      (c (bucketFor buckets (HasKey.key x)) ++ [((t.insert x).2, x)])) := by
  generalize hb₀ : bucketFor buckets (HasKey.key x) = b₀
  generalize hk : t.arena.nextHandle = k
  -- the item is in the arena, but no chain leads to it yet
  generalize hu : ({ t with arena := (t.arena.insert ⟨x, none⟩).1, size := t.size + 1 } : Index α buckets) = u
  have heq : t.insert x = (u.linkAfter b₀ ((c b₀).getLast?.map Prod.fst) (some k), k) := by
    unfold insert
    simp only [h.bucket_eq, Arena.insert_snd, hk, hb₀, hu]
  have hget : ∀ k', u.arena.get? k' = if k = k' then some ⟨x, none⟩ else t.arena.get? k' := by
    intro k'
    rw [← hu, ← hk]
    exact Arena.get?_insert h.arena _ _
  have hfresh : t.get? k = none := by
    unfold get?
    rw [← hk, Arena.get?_nextHandle h.arena, Option.map_none]
  have hne : ∀ {b e}, e ∈ c b → k ≠ e.1 := by
    rintro b e he rfl
    rw [h.get?_of_mem he] at hfresh
    cases hfresh
  have hold : ∀ b, ∀ e ∈ c b, u.arena.get? e.1 = t.arena.get? e.1 := fun b e he => by
    rw [hget, if_neg (hne he)]
  rw [heq]
  refine h.update ?_ ?_ (fun b hb => ?_) (fun b hb e he => ?_) ?_ (fun e he => ?_)
    (fun k' y hy => ?_) ?_
  · exact wellFormed_linkAfter (by rw [← hu]; exact Arena.wellFormed_insert h.arena _) _ _ _
  · have hs : Segment u.arena none (u.head b₀) (c b₀) := by
      rw [← hu]; exact (h.chain b₀).congr fun e he => by rw [← hold b₀ e he, ← hu]
    refine (Segment.append none _ _ _).2
      ⟨some k, segment_linkAfter hs (h.nodup b₀) _, rfl, none, ?_, rfl⟩
    rw [arena_linkAfter_of_ne u b₀ _ fun e he => (hne he).symm, hget, if_pos rfl]
  · rw [head_linkAfter, if_neg (fun hc => hb hc.2), ← hu]
    rfl
  · rw [arena_linkAfter_of_ne u b₀ _ fun e' he' hk' => hb (h.bucket_unique he' he hk'), hold b e he]
  · exact nodup_map_append_singleton (h.nodup b₀) fun e he => (hne he).symm
  · rcases List.mem_append.1 he with he | he
    · exact h.home b₀ e he
    · rw [List.mem_singleton.1 he]
      exact hb₀
  · rw [get?_linkAfter] at hy
    unfold get? at hy
    rw [hget] at hy
    by_cases hkk : k = k'
    · subst hkk
      obtain rfl : x = y := by simpa using hy
      exact Or.inl (List.mem_append_right _ (List.mem_singleton_self _))
    · rw [if_neg hkk] at hy
      by_cases hm : (k', y) ∈ c b₀
      · exact Or.inl (List.mem_append_left _ hm)
      · exact Or.inr ⟨hy, hm⟩
  · have hsize : u.size = t.size + 1 := by rw [← hu]
    rw [size_linkAfter, hsize, List.length_append, List.length_singleton]
    omega

/-- A removal takes the entry of the handle out of its list, if there is one. -/
theorem holds_erase {t : Index α buckets} {c : Fin buckets → List (Handle × α)} (h : t.Holds c)
    (k : Handle) : (t.erase k).1.Holds fun b => (c b).filter (·.1 ≠ k) := by
  unfold erase
  cases hg : t.arena.get? k with
  | none =>
    have hc : (fun b => (c b).filter (·.1 ≠ k)) = c := by
      funext b
      refine List.filter_eq_self.2 fun e he => ?_
      have hx := h.get?_of_mem he
      rw [decide_eq_true_eq]
      rintro rfl
      simp [get?, hg] at hx
    rw [hc]
    exact h
  | some link =>
    simp only
    generalize hb₀ : bucketFor buckets (HasKey.key link.item) = b₀
    have hx : t.get? k = some link.item := by simp [get?, hg]
    obtain ⟨es, fs, hl, hfil, hke, hkf, hdis, hn₁, hn₂⟩ :=
      exists_split (h.nodup b₀) ((h.mem_iff k link.item b₀).2 ⟨hx, hb₀⟩)
    have htake : (c b₀).takeWhile (·.1 != k) = es := by
      rw [hl, List.takeWhile_append_of_pos fun e he => by simpa using hke e he]
      simp
    have hupd : (fun b => (c b).filter (·.1 ≠ k)) = Function.update c b₀ (es ++ fs) := by
      funext b
      by_cases hb : b₀ = b
      · subst hb; rw [Function.update_self, hfil]
      · rw [Function.update_of_ne (Ne.symm hb)]
        refine List.filter_eq_self.2 fun e he => ?_
        rw [decide_eq_true_eq]
        intro hek
        exact hb (h.bucket_unique (e := (k, link.item)) (by rw [hl]; simp) he hek.symm)
    have hchain := h.chain b₀
    rw [hl] at hchain
    have hclosed := segment_unlink hchain hg hn₁ hke hkf hdis
    rw [hupd, h.bucket_eq, htake]
    generalize hu : t.linkAfter b₀ (es.getLast?.map Prod.fst) link.next = u at hclosed ⊢
    have herase : ∀ k', k ≠ k' → (u.arena.erase k).get? k' = u.arena.get? k' := fun k' hk' => by
      rw [Arena.get?_erase, if_neg hk']
    refine h.update ?_ hclosed (fun b hb => ?_) (fun b hb e hm => ?_) ?_ (fun e hm => ?_)
      (fun k' y hy => ?_) ?_
    · rw [← hu]; exact Arena.wellFormed_erase (wellFormed_linkAfter h.arena _ _ _) _
    · show u.head b = t.head b
      rw [← hu, head_linkAfter, if_neg fun hc => hb hc.2]
    · have hek : k ≠ e.1 := fun hek =>
        hb (h.bucket_unique (e := (k, link.item)) (by rw [hl]; simp) hm hek)
      show (u.arena.erase k).get? e.1 = _
      rw [herase e.1 hek, ← hu]
      refine arena_linkAfter_of_ne t b₀ _ fun e' he' hk' => hb (h.bucket_unique ?_ hm hk')
      rw [hl]
      exact List.mem_append_left _ he'
    · rw [List.map_append]
      refine List.nodup_append.2 ⟨hn₁, hn₂, fun k₁ hk₁ k₂ hk₂ => ?_⟩
      obtain ⟨e, he, rfl⟩ := List.mem_map.1 hk₁
      obtain ⟨e', he', rfl⟩ := List.mem_map.1 hk₂
      exact hdis e he e' he'
    · refine h.home b₀ e ?_
      rw [hl]
      rcases List.mem_append.1 hm with hm | hm <;> simp [hm]
    · have hkk : k ≠ k' := by
        rintro rfl
        simp [get?, Arena.get?_erase] at hy
      have hy' : t.get? k' = some y := by
        rw [← get?_linkAfter t b₀ (es.getLast?.map Prod.fst) link.next, hu]
        unfold get? at hy ⊢
        rwa [herase k' hkk] at hy
      by_cases hm : (k', y) ∈ c b₀
      · rw [hl] at hm
        rcases List.mem_append.1 hm with hm | hm
        · exact Or.inl (List.mem_append_left _ hm)
        · rcases List.mem_cons.1 hm with heq | hm
          · exact absurd (congrArg Prod.fst heq).symm hkk
          · exact Or.inl (List.mem_append_right _ hm)
      · exact Or.inr ⟨hy', hm⟩
    · have htotal := Finset.add_sum_erase Finset.univ (fun b => (c b).length) (Finset.mem_univ b₀)
      have hsize : u.size = t.size := by rw [← hu, size_linkAfter]
      rw [← h.size] at htotal
      simp only [hl, List.length_append, List.length_cons, hsize] at htotal ⊢
      omega

/-- A change of an item that keeps its key changes its entry. -/
theorem holds_modify {t : Index α buckets} {c : Fin buckets → List (Handle × α)} (h : t.Holds c)
    (k : Handle) (f : α → α) (hf : ∀ x, t.get? k = some x → HasKey.key (f x) = HasKey.key x) :
    (t.modify k f).Holds fun b => (c b).map fun e => (e.1, if k = e.1 then f e.2 else e.2) where
  arena := Arena.wellFormed_modify h.arena _ _
  chain b := by
    refine (h.chain b).map (f := fun e => if k = e.1 then f e.2 else e.2) fun e he => ?_
    unfold modify
    rw [Arena.get?_modify]
    by_cases hk : k = e.1
    · simp only [hk, if_true]
    · simp only [hk, if_false, Option.map_id']
  nodup b := by
    rw [List.map_map]
    exact h.nodup b
  home b e he := by
    obtain ⟨e', he', rfl⟩ := List.mem_map.1 he
    have hb := h.home b e' he'
    by_cases hk : k = e'.1
    · have hx : t.get? k = some e'.2 := by rw [hk]; exact h.get?_of_mem he'
      simp only [if_pos hk]
      rw [hf e'.2 hx, hb]
    · simp only [if_neg hk]
      exact hb
  covers k' y hy := by
    unfold get? modify at hy
    rw [Arena.get?_modify] at hy
    obtain ⟨x, hx, hxy⟩ : ∃ x, t.get? k' = some x ∧ y = if k = k' then f x else x := by
      unfold get?
      by_cases hk : k = k'
      · rw [if_pos hk, Option.map_map] at hy
        obtain ⟨link, hl, rfl⟩ := Option.map_eq_some_iff.1 hy
        exact ⟨link.item, by rw [hl, Option.map_some], by rw [if_pos hk]; rfl⟩
      · rw [if_neg hk] at hy
        exact ⟨y, hy, by rw [if_neg hk]⟩
    obtain ⟨b, hb⟩ := h.covers k' x hx
    exact ⟨b, List.mem_map.2 ⟨(k', x), hb, by rw [hxy]⟩⟩
  size := by simpa [modify] using h.size

/-- Removals one after the other take out the entries of all the handles. -/
theorem holds_eraseEach {t : Index α buckets} {c : Fin buckets → List (Handle × α)} (h : t.Holds c)
    (hs : List Handle) : (t.eraseEach hs).1.Holds fun b => (c b).filter (·.1 ∉ hs) := by
  induction hs generalizing t c with
  | nil => simpa [eraseEach] using h
  | cons k hs ih =>
    have hrest := ih (holds_erase h k)
    simp only [List.filter_filter] at hrest
    have heq : ∀ b, (c b).filter (fun e => e.1 ∉ k :: hs) =
        (c b).filter (fun e => decide (e.1 ∉ hs) && decide (e.1 ≠ k)) := fun b =>
      List.filter_congr fun e _ => by simp [Bool.and_comm]
    simp only [heq]
    exact hrest

/-! ### An index as a map from handles to items -/

namespace WellFormed

variable {t : Index α buckets}

theorem empty : (Index.empty : Index α buckets).WellFormed := holds_empty.wellFormed

theorem insert (h : t.WellFormed) (x : α) : (t.insert x).1.WellFormed := (holds_insert h x).wellFormed

theorem erase (h : t.WellFormed) (k : Handle) : (t.erase k).1.WellFormed :=
  (holds_erase h k).wellFormed

theorem modify (h : t.WellFormed) (k : Handle) (f : α → α)
    (hf : ∀ x, t.get? k = some x → HasKey.key (f x) = HasKey.key x) : (t.modify k f).WellFormed :=
  (holds_modify h k f hf).wellFormed

theorem eraseWhere (h : t.WellFormed) (p : α → Bool) : (t.eraseWhere p).1.WellFormed :=
  (holds_eraseEach h _).wellFormed

end WellFormed

theorem insert_snd (t : Index α buckets) (x : α) : (t.insert x).2 = t.arena.nextHandle := rfl

theorem get?_insert {t : Index α buckets} (h : t.WellFormed) (x : α) (k : Handle) :
    (t.insert x).1.get? k = if (t.insert x).2 = k then some x else t.get? k := by
  have hl : (t.insert x).1.get? k = ((t.arena.insert ⟨x, none⟩).1.get? k).map Link.item :=
    get?_linkAfter _ _ _ _ _
  rw [hl, Arena.get?_insert h.arena, insert_snd]
  unfold get?
  split <;> rfl

/-- The handle of an inserted item led nowhere. -/
theorem get?_insert_snd {t : Index α buckets} (h : t.WellFormed) (x : α) :
    t.get? (t.insert x).2 = none := by
  unfold get?
  rw [insert_snd, Arena.get?_nextHandle h.arena, Option.map_none]

theorem get?_erase (t : Index α buckets) (h k : Handle) :
    (t.erase h).1.get? k = if h = k then none else t.get? k := by
  unfold erase
  cases hg : t.arena.get? h with
  | none =>
    by_cases hk : h = k
    · subst hk; simp [get?, hg]
    · simp only [if_neg hk]
  | some link =>
    simp only
    rw [← get?_linkAfter t (bucketFor buckets (HasKey.key link.item))
      (((t.bucket (bucketFor buckets (HasKey.key link.item))).takeWhile (·.1 != h)).getLast?.map
        Prod.fst) link.next k]
    unfold get?
    rw [Arena.get?_erase]
    split <;> rfl

/-- What a removal returns is what the handle led to. -/
theorem erase_snd (t : Index α buckets) (k : Handle) : (t.erase k).2 = t.get? k := by
  unfold erase get?
  cases t.arena.get? k with
  | none => rfl
  | some link => rfl

/-- Removals one after the other return what the handles led to. -/
theorem eraseEach_snd (t : Index α buckets) {hs : List Handle} (hn : hs.Nodup) :
    (t.eraseEach hs).2 = hs.filterMap t.get? := by
  induction hs generalizing t with
  | nil => rfl
  | cons k hs ih =>
    obtain ⟨hk, hn⟩ := List.nodup_cons.1 hn
    have hstep : (t.eraseEach (k :: hs)).2 =
        (t.erase k).2.toList ++ ((t.erase k).1.eraseEach hs).2 := rfl
    -- A removal changes what its own handle leads to, which is in no later place.
    have hrest : hs.filterMap (t.erase k).1.get? = hs.filterMap t.get? := by
      refine List.filterMap_congr fun h hh => ?_
      rw [get?_erase, if_neg]
      rintro rfl
      exact hk hh
    rw [hstep, ih _ hn, hrest, erase_snd, List.filterMap_cons]
    cases t.get? k with
    | none => rfl
    | some x => rfl

theorem mem_toList {t : Index α buckets} (h : t.WellFormed) (k : Handle) (x : α) :
    (k, x) ∈ t.toList ↔ t.get? k = some x := by
  rw [toList_eq, List.mem_flatMap]
  constructor
  · rintro ⟨b, -, hm⟩
    exact h.get?_of_mem hm
  · intro hx
    obtain ⟨b, hm⟩ := h.covers k x hx
    exact ⟨b, List.mem_finRange b, hm⟩

/-- Every item is listed once. -/
theorem nodup_toList {t : Index α buckets} (h : t.WellFormed) : (t.toList.map Prod.fst).Nodup := by
  rw [toList_eq, List.map_flatMap, List.nodup_flatMap]
  refine ⟨fun b _ => h.nodup b, (List.nodup_finRange buckets).imp ?_⟩
  intro b b' hb k hk hk'
  obtain ⟨e, he, rfl⟩ := List.mem_map.1 hk
  obtain ⟨e', he', hek⟩ := List.mem_map.1 hk'
  exact hb (h.bucket_unique he he' hek.symm)

theorem mem_items {t : Index α buckets} (h : t.WellFormed) (x : α) :
    x ∈ t.items ↔ ∃ k, t.get? k = some x := by
  unfold items
  rw [List.mem_map]
  constructor
  · rintro ⟨⟨k, y⟩, hm, rfl⟩
    exact ⟨k, (mem_toList h k y).1 hm⟩
  · rintro ⟨k, hx⟩
    exact ⟨(k, x), (mem_toList h k x).2 hx, rfl⟩

theorem size_eq {t : Index α buckets} (h : t.WellFormed) : t.size = t.items.length := by
  unfold items
  rw [h.size, toList_eq, List.length_map, List.length_flatMap, ← List.sum_toFinset _ (List.nodup_finRange _)]
  simp

/-- A removal by a property takes the entries that have it out of all lists. -/
theorem holds_eraseWhere {t : Index α buckets} {c : Fin buckets → List (Handle × α)} (h : t.Holds c)
    (p : α → Bool) : (t.eraseWhere p).1.Holds fun b => (c b).filter fun e => !p e.2 := by
  have hc : (fun b => (c b).filter (·.1 ∉ (t.toList.filter fun e => p e.2).map Prod.fst)) =
      fun b => (c b).filter fun e => !p e.2 := by
    funext b
    refine List.filter_congr fun e he => ?_
    have hm := (mem_toList h.wellFormed e.1 e.2).2 (h.get?_of_mem he)
    have hiff := mem_handles_filter (p := fun e => p e.2) (nodup_toList h.wellFormed) hm
    cases hp : p e.2 <;> simp [hiff, hp]
  rw [← hc]
  exact holds_eraseEach h _

/-- What remains stays in its order. -/
theorem toList_eraseWhere {t : Index α buckets} (h : t.WellFormed) (p : α → Bool) :
    (t.eraseWhere p).1.toList = t.toList.filter fun e => !p e.2 := by
  rw [(holds_eraseWhere h p).toList_eq, toList_eq, List.filter_flatMap]

/-- A removal by a property leaves the items that do not have it. -/
theorem get?_eraseWhere {t : Index α buckets} (h : t.WellFormed) (p : α → Bool) (k : Handle) :
    (t.eraseWhere p).1.get? k = (t.get? k).filter fun x => !p x := by
  ext x
  rw [← mem_toList (holds_eraseWhere h p).wellFormed, toList_eraseWhere h, List.mem_filter,
    mem_toList h, Option.filter_eq_some_iff]

/-- The items removed by a property are those that have it, in their order. -/
theorem eraseWhere_snd {t : Index α buckets} (h : t.WellFormed) (p : α → Bool) :
    (t.eraseWhere p).2 = (t.toList.filter fun e => p e.2).map Prod.snd := by
  have hsub : ((t.toList.filter fun e => p e.2).map Prod.fst).Nodup :=
    (nodup_toList h).sublist (List.filter_sublist.map _)
  unfold eraseWhere
  rw [eraseEach_snd t hsub, List.filterMap_map, ← List.filterMap_eq_map]
  refine List.filterMap_congr fun e he => ?_
  exact (mem_toList h e.1 e.2).1 (List.mem_of_mem_filter he)

/-! ### Lookup -/

/-- What is found has the key and the property. -/
theorem find?_eq_some {t : Index α buckets} (h : t.WellFormed) {key : String} {p : α → Bool}
    {k : Handle} (hk : t.find? key p = some k) :
    ∃ x, t.get? k = some x ∧ HasKey.key x = key ∧ p x = true := by
  unfold find? chain at hk
  obtain ⟨e, he, rfl⟩ := Option.map_eq_some_iff.1 hk
  have hm := List.mem_of_find?_eq_some he
  have hp := List.find?_some he
  simp only [Bool.and_eq_true, beq_iff_eq] at hp
  exact ⟨e.2, h.get?_of_mem hm, hp⟩

/-- An item with the key and the property is found, or another one. -/
theorem find?_isSome {t : Index α buckets} (h : t.WellFormed) {key : String} {p : α → Bool}
    {k : Handle} {x : α} (hx : t.get? k = some x) (hkey : HasKey.key x = key) (hp : p x = true) :
    (t.find? key p).isSome = true := by
  unfold find? chain
  rw [Option.isSome_map, List.find?_isSome]
  have hm := (h.mem_iff k x (bucketFor buckets key)).2 ⟨hx, by rw [hkey]⟩
  exact ⟨(k, x), hm, by simp [hkey, hp]⟩

theorem find?_eq_none {t : Index α buckets} (h : t.WellFormed) {key : String} {p : α → Bool}
    (hn : t.find? key p = none) {k : Handle} {x : α} (hx : t.get? k = some x)
    (hkey : HasKey.key x = key) : p x = false := by
  rw [← Bool.not_eq_true]
  intro hp
  have := find?_isSome h hx hkey hp
  rw [hn] at this
  cases this

/-- The only place at which something is listed gives the list. -/
theorem flatMap_eq_of_unique {β γ : Type} {l : List β} {f : β → List γ} {b₀ : β} (hn : l.Nodup)
    (hm : b₀ ∈ l) (hnil : ∀ b, b ≠ b₀ → f b = []) : l.flatMap f = f b₀ := by
  obtain ⟨before, after, rfl⟩ := List.append_of_mem hm
  rw [List.nodup_append, List.nodup_cons] at hn
  have hbefore : before.flatMap f = [] := by
    refine List.flatMap_eq_nil_iff.2 fun b hb => hnil b ?_
    exact hn.2.2 b hb b₀ List.mem_cons_self
  have hafter : after.flatMap f = [] := by
    refine List.flatMap_eq_nil_iff.2 fun b hb => hnil b ?_
    rintro rfl
    exact hn.2.1.1 hb
  rw [List.flatMap_append, List.flatMap_cons, hbefore, hafter, List.nil_append, List.append_nil]

/-- The items with a property that tells their key are those with it in the chain
of that key, in their order. -/
theorem filter_items {t : Index α buckets} (h : t.WellFormed) (key : String) {p : α → Bool}
    (hp : ∀ x, p x = true → HasKey.key x = key) :
    t.items.filter p = ((t.chain key).filter fun e => p e.2).map Prod.snd := by
  have hother : ∀ b, b ≠ bucketFor buckets key → (t.bucket b).filter (fun e => p e.2) = [] := by
    refine fun b hb => List.filter_eq_nil_iff.2 fun e he hpe => hb ?_
    have hhome := ((h.mem_iff e.1 e.2 b).1 he).2
    rw [← hhome, hp e.2 hpe]
  have hchain := flatMap_eq_of_unique (List.nodup_finRange buckets) (List.mem_finRange _) hother
  unfold items
  rw [toList_eq, List.filter_map, List.filter_flatMap]
  exact congrArg (List.map Prod.snd) hchain

/-- So is the first of them. -/
theorem find?_items {t : Index α buckets} (h : t.WellFormed) (key : String) {p : α → Bool}
    (hp : ∀ x, p x = true → HasKey.key x = key) :
    t.items.find? p = ((t.chain key).find? fun e => p e.2).map Prod.snd := by
  rw [← List.head?_filter, filter_items h key hp, List.head?_map, List.head?_filter]

/-- An item that is changed and keeps its key stays in its place. -/
theorem toList_modify {t : Index α buckets} (h : t.WellFormed) (k : Handle) (f : α → α)
    (hf : ∀ x, t.get? k = some x → HasKey.key (f x) = HasKey.key x) :
    (t.modify k f).toList = t.toList.map fun e => (e.1, if k = e.1 then f e.2 else e.2) := by
  rw [(holds_modify h k f hf).toList_eq, toList_eq, List.map_flatMap]

theorem items_modify {t : Index α buckets} (h : t.WellFormed) (k : Handle) (f : α → α)
    (hf : ∀ x, t.get? k = some x → HasKey.key (f x) = HasKey.key x) :
    (t.modify k f).items = t.toList.map fun e => if k = e.1 then f e.2 else e.2 := by
  unfold items
  rw [toList_modify h k f hf, List.map_map]
  rfl

/-- An item that is inserted comes after all others of its key. -/
theorem filter_items_insert {t : Index α buckets} (h : t.WellFormed) (x : α) (key : String)
    {p : α → Bool} (hp : ∀ y, p y = true → HasKey.key y = key) :
    (t.insert x).1.items.filter p = t.items.filter p ++ [x].filter p := by
  have hchain : (t.insert x).1.chain key =
      if bucketFor buckets key = bucketFor buckets (HasKey.key x) then
        t.chain key ++ [((t.insert x).2, x)]
      else t.chain key := by
    unfold chain
    rw [(holds_insert h x).bucket_eq, Function.update_apply]
    split
    · rename_i he
      rw [he]
    · rfl
  rw [filter_items (h.insert x) key hp, hchain, filter_items h key hp]
  by_cases hx : p x = true
  · rw [if_pos (by rw [hp x hx]), List.filter_append, List.map_append]
    simp [hx]
  · have hnone : [x].filter p = [] := List.filter_cons_of_neg hx
    rw [hnone, List.append_nil]
    split
    · simp [hx]
    · rfl

/-! ### Items told apart -/

namespace Separates

variable {β : Type} {t t' : Index α buckets} {f : α → β}

theorem insert (hs : t.Separates f) (hw : t.WellFormed) {x : α}
    (hx : ∀ k y, t.get? k = some y → f y ≠ f x) : (t.insert x).1.Separates f := by
  intro h k y z hy hz hf
  rw [get?_insert hw] at hy hz
  split at hy
  · rename_i hh
    obtain rfl := Option.some.inj hy
    split at hz
    · rename_i hk
      rw [← hh, ← hk]
    · exact absurd hf.symm (hx k z hz)
  · split at hz
    · obtain rfl := Option.some.inj hz
      exact absurd hf (hx h y hy)
    · exact hs h k y z hy hz hf

/-- The values of `f` are listed once each. -/
theorem nodup_map (hs : t.Separates f) (hw : t.WellFormed) :
    (t.items.map f).Nodup := by
  unfold items
  rw [List.map_map]
  have hn : t.toList.Nodup := List.Nodup.of_map _ (nodup_toList hw)
  refine List.Nodup.map_on (fun e he e' he' hf => ?_) hn
  have hx := (mem_toList hw e.1 e.2).1 he
  have hy := (mem_toList hw e'.1 e'.2).1 he'
  have hk := hs e.1 e'.1 e.2 e'.2 hx hy hf
  rw [hk, hy, Option.some_inj] at hx
  exact Prod.ext hk hx.symm

end Separates

end Index
end SignalRegistry
