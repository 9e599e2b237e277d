/-
# A list of shortcuts is a list

The nodes of a list of shortcuts are linked both ways (`Thread`): each leads to
the next and back to the one before, the head and the tail of the list are the
two ends, and no other node is in the arena (`Shortcuts.Holds`). Seen as a
list, `push` appends, `erase` takes one entry out, `lookup` and `purge` take
out the entries whose blocks are gone, and the order of the others stays.

Key definitions: `Thread`, `Shortcuts.Holds`, `Shortcuts.WellFormed`.
Key theorems: `Shortcuts.holds_push`, `Shortcuts.holds_erase`,
`Shortcuts.toList_push`, `Shortcuts.toList_purge`, `Shortcuts.toList_lookup`,
`Shortcuts.lookup_snd`.
-/
import Mathlib.Data.List.Find
import Mathlib.Data.List.Induction
import Mathlib.Data.List.TakeWhile
import SignalRegistry.Proofs.Arena
import SignalRegistry.Shortcuts

namespace SignalRegistry

/-! ### Threads -/

/-- The nodes from `first` to `last` hold exactly these blocks, linked both
ways; `prev` comes before the first and `after` follows the last. -/
def Thread (a : Arena ShortcutNode) (last after : Option Handle) :
    Option Handle → Option Handle → List (Handle × BlockRef) → Prop
  | prev, first, [] => first = after ∧ prev = last
  | prev, first, (h, b) :: rest =>
    first = some h ∧ ∃ next, a.get? h = some ⟨b, prev, next⟩ ∧ Thread a last after (some h) next rest

namespace Thread

variable {a b : Arena ShortcutNode}

theorem append (last after : Option Handle) (es fs : List (Handle × BlockRef))
    (prev first : Option Handle) : Thread a last after prev first (es ++ fs) ↔
      ∃ mid next, Thread a mid next prev first es ∧ Thread a last after mid next fs := by
  induction es generalizing prev first with
  | nil => simp [Thread]
  | cons e es ih =>
    simp only [List.cons_append, Thread, ih]
    constructor
    · rintro ⟨hf, next, hg, mid, next', he, hs⟩
      exact ⟨mid, next', ⟨hf, next, hg, he⟩, hs⟩
    · rintro ⟨mid, next', ⟨hf, next, hg, he⟩, hs⟩
      exact ⟨hf, next, hg, mid, next', he, hs⟩

theorem get? {last after prev first : Option Handle} {es : List (Handle × BlockRef)}
    (hs : Thread a last after prev first es) :
    ∀ e ∈ es, ∃ p n, a.get? e.1 = some ⟨e.2, p, n⟩ := by
  induction es generalizing prev first with
  | nil =>
    intro e he
    cases he
  | cons e es ih =>
    obtain ⟨-, next, hg, hrest⟩ := hs
    intro e' he'
    rcases List.mem_cons.1 he' with rfl | hmem
    · exact ⟨prev, next, hg⟩
    · exact ih hrest e' hmem

/-- A thread depends on its own nodes only. -/
theorem congr {last after prev first : Option Handle} {es : List (Handle × BlockRef)}
    (hs : Thread a last after prev first es) (heq : ∀ e ∈ es, b.get? e.1 = a.get? e.1) :
    Thread b last after prev first es := by
  induction es generalizing prev first with
  | nil => exact hs
  | cons e es ih =>
    obtain ⟨hf, next, hg, hrest⟩ := hs
    have hhead : b.get? e.1 = some ⟨e.2, prev, next⟩ := by rw [heq e List.mem_cons_self, hg]
    have htail := ih hrest fun e' he' => heq e' (List.mem_cons_of_mem e he')
    exact ⟨hf, next, hhead, htail⟩

/-- A thread begins with its first node, or with what follows it. -/
theorem first_mem {last after prev first : Option Handle} {es : List (Handle × BlockRef)}
    (hs : Thread a last after prev first es) : first = after ∨ ∃ e ∈ es, first = some e.1 := by
  cases es with
  | nil => exact Or.inl hs.1
  | cons e es => exact Or.inr ⟨e, List.mem_cons_self, hs.1⟩

/-- A thread ends with its last node, or with what came before it. -/
theorem last_mem {last after prev first : Option Handle} {es : List (Handle × BlockRef)}
    (hs : Thread a last after prev first es) : last = prev ∨ ∃ e ∈ es, last = some e.1 := by
  induction es generalizing prev first with
  | nil => exact Or.inl hs.2.symm
  | cons e es ih =>
    obtain ⟨-, next, -, hrest⟩ := hs
    rcases ih hrest with hl | ⟨e', he', hl⟩
    · exact Or.inr ⟨e, List.mem_cons_self, hl⟩
    · exact Or.inr ⟨e', List.mem_cons_of_mem _ he', hl⟩

/-- Following the links forward finds the blocks in order. -/
theorem follow_next {last prev first : Option Handle} {es : List (Handle × BlockRef)} {fuel : Nat}
    (hs : Thread a last none prev first es) (hl : es.length ≤ fuel) :
    follow a ShortcutNode.next fuel first = es := by
  induction es generalizing prev first fuel with
  | nil =>
    obtain ⟨rfl, -⟩ := hs
    cases fuel <;> rfl
  | cons e es ih =>
    obtain ⟨rfl, next, hg, hrest⟩ := hs
    rw [List.length_cons] at hl
    cases fuel with
    | zero => omega
    | succ fuel =>
      have htail : follow a ShortcutNode.next fuel next = es := ih hrest (by omega)
      simp only [follow, hg, htail]

/-- Following the links back finds the blocks in reverse. -/
theorem follow_prev {last after first : Option Handle} {es : List (Handle × BlockRef)} {fuel : Nat}
    (hs : Thread a last after none first es) (hl : es.length ≤ fuel) :
    follow a ShortcutNode.prev fuel last = es.reverse := by
  induction es using List.reverseRecOn generalizing last after fuel with
  | nil =>
    obtain ⟨-, rfl⟩ := hs
    cases fuel <;> rfl
  | append_singleton es e ih =>
    obtain ⟨mid, next, hinit, -, _, hg, -, rfl⟩ := (Thread.append _ _ es [e] _ _).1 hs
    rw [List.length_append, List.length_singleton] at hl
    cases fuel with
    | zero => omega
    | succ fuel =>
      have hrest : follow a ShortcutNode.prev fuel mid = es.reverse := ih hinit (by omega)
      simp only [follow, hg, hrest, List.reverse_append, List.reverse_singleton,
        List.singleton_append]

end Thread

namespace Shortcuts

/-! ### What a list of shortcuts holds -/

/-- The block of the shortcut a handle leads to. -/
def block? (l : Shortcuts) (h : Handle) : Option BlockRef := (l.arena.get? h).map ShortcutNode.block

/-- The nodes are those of the entries, linked both ways from head to tail. -/
structure Holds (l : Shortcuts) (es : List (Handle × BlockRef)) : Prop where
  arena : l.arena.WellFormed
  thread : Thread l.arena l.tail none none l.head es
  nodup : (es.map Prod.fst).Nodup
  covers : ∀ h b, l.block? h = some b → (h, b) ∈ es
  size : l.size = es.length

/-- The list holds what its walk finds. -/
def WellFormed (l : Shortcuts) : Prop := l.Holds l.toList

namespace Holds

variable {l : Shortcuts} {es : List (Handle × BlockRef)}

theorem length_le (h : l.Holds es) : es.length ≤ l.arena.cells.size := by
  have hl : ∀ k ∈ es.map Prod.fst, ∃ x, l.arena.get? k = some x := by
    intro k hk
    obtain ⟨e, he, rfl⟩ := List.mem_map.1 hk
    obtain ⟨p, n, hg⟩ := h.thread.get? e he
    exact ⟨_, hg⟩
  simpa using Arena.length_le_size h.nodup hl

theorem toList_eq (h : l.Holds es) : l.toList = es := h.thread.follow_next h.length_le

theorem toListBack_eq (h : l.Holds es) : l.toListBack = es.reverse :=
  h.thread.follow_prev h.length_le

theorem wellFormed (h : l.Holds es) : l.WellFormed := by
  unfold WellFormed
  rw [h.toList_eq]
  exact h

theorem mem_iff (h : l.Holds es) (k : Handle) (b : BlockRef) :
    (k, b) ∈ es ↔ l.block? k = some b := by
  constructor
  · intro hm
    obtain ⟨p, n, hg⟩ := h.thread.get? (k, b) hm
    simp [block?, hg]
  · exact h.covers k b

end Holds

theorem arena_setNext (l : Shortcuts) (at? next : Option Handle) (k : Handle) :
    (l.setNext at? next).arena.get? k =
      if at? = some k then (l.arena.get? k).map fun node => { node with next := next }
      else l.arena.get? k := by
  cases at? with
  | none => simp [setNext]
  | some h => simp [setNext, Arena.get?_modify]

theorem arena_setPrev (l : Shortcuts) (at? prev : Option Handle) (k : Handle) :
    (l.setPrev at? prev).arena.get? k =
      if at? = some k then (l.arena.get? k).map fun node => { node with prev := prev }
      else l.arena.get? k := by
  cases at? with
  | none => simp [setPrev]
  | some h => simp [setPrev, Arena.get?_modify]

@[simp] theorem block?_setNext (l : Shortcuts) (at? next : Option Handle) (k : Handle) :
    (l.setNext at? next).block? k = l.block? k := by
  unfold block?
  rw [arena_setNext]
  split
  · cases l.arena.get? k <;> rfl
  · rfl

@[simp] theorem block?_setPrev (l : Shortcuts) (at? prev : Option Handle) (k : Handle) :
    (l.setPrev at? prev).block? k = l.block? k := by
  unfold block?
  rw [arena_setPrev]
  split
  · cases l.arena.get? k <;> rfl
  · rfl

@[simp] theorem head_setPrev (l : Shortcuts) (at? prev : Option Handle) :
    (l.setPrev at? prev).head = l.head := by
  unfold setPrev; split <;> rfl

@[simp] theorem tail_setNext (l : Shortcuts) (at? next : Option Handle) :
    (l.setNext at? next).tail = l.tail := by
  unfold setNext; split <;> rfl

@[simp] theorem size_setNext (l : Shortcuts) (at? next : Option Handle) :
    (l.setNext at? next).size = l.size := by
  unfold setNext; split <;> rfl

@[simp] theorem size_setPrev (l : Shortcuts) (at? prev : Option Handle) :
    (l.setPrev at? prev).size = l.size := by
  unfold setPrev; split <;> rfl

theorem wellFormed_setNext {l : Shortcuts} (h : l.arena.WellFormed) (at? next : Option Handle) :
    (l.setNext at? next).arena.WellFormed := by
  unfold setNext
  split
  · exact Arena.wellFormed_modify h _ _
  · exact h

theorem wellFormed_setPrev {l : Shortcuts} (h : l.arena.WellFormed) (at? prev : Option Handle) :
    (l.setPrev at? prev).arena.WellFormed := by
  unfold setPrev
  split
  · exact Arena.wellFormed_modify h _ _
  · exact h

/-- The next link of the last node of a thread, or its head, set anew. -/
theorem thread_setNext {l : Shortcuts} {last after : Option Handle} {es : List (Handle × BlockRef)}
    (hs : Thread l.arena last after none l.head es) (hn : (es.map Prod.fst).Nodup)
    (next : Option Handle) :
    Thread (l.setNext last next).arena last next none (l.setNext last next).head es := by
  rcases List.eq_nil_or_concat es with rfl | ⟨es, ⟨k, x⟩, rfl⟩
  · obtain ⟨-, hl⟩ := hs
    subst hl
    exact ⟨rfl, rfl⟩
  · simp only [List.concat_eq_append, List.map_append, List.map_cons, List.map_nil,
      List.nodup_append] at hs hn ⊢
    obtain ⟨mid, m, he, hf, _, hg, _, rfl⟩ := (Thread.append last after es [(k, x)] _ _).1 hs
    have hh : (l.setNext (some k) next).head = l.head := rfl
    rw [hh]
    refine (Thread.append _ _ es [(k, x)] _ _).2 ⟨mid, m, he.congr fun e hm => ?_, hf, next, ?_,
      rfl, rfl⟩
    · have hne : k ≠ e.1 := fun h =>
        hn.2.2 e.1 (List.mem_map_of_mem hm) k (List.mem_singleton_self k) h.symm
      rw [arena_setNext, if_neg (by simpa using hne)]
    · rw [arena_setNext, if_pos rfl, hg, Option.map_some]

/-- The link back of the first node of a thread, or the tail, set anew. -/
theorem thread_setPrev {l : Shortcuts} {prev first : Option Handle} {es : List (Handle × BlockRef)}
    (hs : Thread l.arena l.tail none prev first es) (hn : (es.map Prod.fst).Nodup)
    (prev' : Option Handle) :
    Thread (l.setPrev first prev').arena (l.setPrev first prev').tail none prev' first es := by
  cases es with
  | nil =>
    obtain ⟨hf, -⟩ := hs
    subst hf
    exact ⟨rfl, rfl⟩
  | cons e es =>
    obtain ⟨k, x⟩ := e
    obtain ⟨rfl, next, hg, hs⟩ := hs
    rw [List.map_cons, List.nodup_cons] at hn
    refine ⟨rfl, next, ?_, hs.congr fun e hm => ?_⟩
    · rw [arena_setPrev, if_pos rfl, hg, Option.map_some]
    · have hne : k ≠ e.1 := fun h => hn.1 (List.mem_map.2 ⟨e, hm, h.symm⟩)
      rw [arena_setPrev, if_neg (by simpa using hne)]

/-- A thread around a node closes up when the node is taken out (`l₀`), then its
left neighbour is linked on (`l₁`), and then its right neighbour is linked back. -/
theorem thread_unlink {l : Shortcuts} {es fs : List (Handle × BlockRef)} {k : Handle} {x : BlockRef}
    {prev next : Option Handle}
    (hs : Thread l.arena l.tail none none l.head (es ++ (k, x) :: fs))
    (hg : l.arena.get? k = some ⟨x, prev, next⟩) (hn₁ : (es.map Prod.fst).Nodup)
    (hn₂ : (fs.map Prod.fst).Nodup) (hes : ∀ e ∈ es, e.1 ≠ k) (hfs : ∀ e ∈ fs, e.1 ≠ k)
    (hdis : ∀ e ∈ es, ∀ e' ∈ fs, e.1 ≠ e'.1) :
    let l₀ : Shortcuts := { l with arena := l.arena.erase k, size := l.size - 1 }
    let l₁ := l₀.setNext prev next
    let l₂ := l₁.setPrev next prev
    Thread l₂.arena l₂.tail none none l₂.head (es ++ fs) := by
  intro l₀ l₁ l₂
  obtain ⟨mid, first, hl, hf, next', hg', hr⟩ := (Thread.append _ _ es _ _ _).1 hs
  rw [hg, Option.some_inj, ShortcutNode.mk.injEq] at hg'
  obtain ⟨-, rfl, rfl⟩ := hg'
  have hget : ∀ e : Handle × BlockRef, e.1 ≠ k → l₀.arena.get? e.1 = l.arena.get? e.1 := by
    intro e he
    show (l.arena.erase k).get? e.1 = _
    rw [Arena.get?_erase, if_neg he.symm]
  have hl₀ : Thread l₀.arena prev first none l₀.head es := hl.congr fun e he => hget e (hes e he)
  have hl₁ : Thread l₁.arena prev next none l₁.head es := thread_setNext hl₀ hn₁ next
  have hr₁ : Thread l₁.arena l₁.tail none (some k) next fs := by
    rw [tail_setNext]
    refine hr.congr fun e he => ?_
    have hne : prev ≠ some e.1 := by
      rcases hl.last_mem with hp | ⟨e', he', hp⟩
      · simp [hp]
      · simpa [hp] using hdis e' he' e he
    rw [arena_setNext, if_neg hne, hget e (hfs e he)]
  have hl₂ : Thread l₂.arena prev next none l₁.head es := by
    refine hl₁.congr fun e he => ?_
    have hne : next ≠ some e.1 := by
      rcases hr.first_mem with hq | ⟨e', he', hq⟩
      · simp [hq]
      · simpa [hq] using (hdis e he e' he').symm
    rw [arena_setPrev, if_neg hne]
  rw [head_setPrev]
  exact (Thread.append _ _ es fs _ _).2 ⟨prev, next, hl₂, thread_setPrev hr₁ hn₂ prev⟩

/-! ### Operations on the list -/

theorem holds_empty : empty.Holds [] where
  arena := Arena.wellFormed_empty
  thread := ⟨rfl, rfl⟩
  nodup := List.nodup_nil
  covers h b hb := by simp [empty, block?] at hb
  size := rfl

theorem holds_push {l : Shortcuts} {es : List (Handle × BlockRef)} (h : l.Holds es) (b : BlockRef) :
    (l.push b).1.Holds (es ++ [((l.push b).2, b)]) := by
  -- `m` is the list with the new node, which nothing leads to yet.
  let m : Shortcuts := { l with arena := (l.arena.insert ⟨b, l.tail, none⟩).1 }
  let k := l.arena.nextHandle
  have hget : ∀ k', m.arena.get? k' = if k = k' then some ⟨b, l.tail, none⟩ else l.arena.get? k' :=
    Arena.get?_insert h.arena _
  have hnew : ∀ e ∈ es, k ≠ e.1 := by
    rintro e he hk
    obtain ⟨p, n, hg⟩ := h.thread.get? e he
    rw [← hk, Arena.get?_nextHandle h.arena] at hg
    cases hg
  have htail : l.tail ≠ some k := by
    rcases h.thread.last_mem with ht | ⟨e, he, ht⟩
    · simp [ht]
    · simpa [ht] using (hnew e he).symm
  have hm : Thread m.arena m.tail none none m.head es :=
    h.thread.congr fun e he => by rw [hget, if_neg (hnew e he)]
  have harena : m.arena.WellFormed := Arena.wellFormed_insert h.arena _
  refine ⟨wellFormed_setNext harena _ _, ?_, ?_, fun k' b' hb => ?_, ?_⟩
  · refine (Thread.append _ _ es [(k, b)] _ _).2
      ⟨l.tail, some k, thread_setNext hm h.nodup (some k), rfl, none, ?_, rfl, rfl⟩
    show (m.setNext l.tail (some k)).arena.get? k = _
    rw [arena_setNext, if_neg htail, hget, if_pos rfl]
  · exact nodup_map_append_singleton h.nodup fun e he => (hnew e he).symm
  · have hb : (m.setNext l.tail (some k)).block? k' = some b' := hb
    rw [block?_setNext] at hb
    unfold block? at hb
    rw [hget] at hb
    rw [List.mem_append]
    split at hb
    · rename_i hk
      right
      obtain rfl : b = b' := by simpa using hb
      exact List.mem_singleton.2 (Prod.ext hk.symm rfl)
    · exact Or.inl (h.covers k' b' hb)
  · show l.size + 1 = _
    rw [h.size, List.length_append, List.length_singleton]

theorem holds_erase {l : Shortcuts} {es : List (Handle × BlockRef)} (h : l.Holds es) (k : Handle) :
    (l.erase k).1.Holds (es.filter (·.1 ≠ k)) := by
  unfold erase
  cases hg : l.arena.get? k with
  | none =>
    have hne : ∀ e ∈ es, e.1 ≠ k := by
      rintro e he rfl
      obtain ⟨p, n, hg'⟩ := h.thread.get? e he
      rw [hg] at hg'
      cases hg'
    rwa [List.filter_eq_self.2 fun e he => by simpa using hne e he]
  | some node =>
    obtain ⟨x, prev, next⟩ := node
    have hm : (k, x) ∈ es := h.covers k x (by simp [block?, hg])
    obtain ⟨es, fs, rfl, hfil, hes, hfs, hdis, hn₁, hn₂⟩ := exists_split h.nodup hm
    rw [hfil]
    have hclosed := thread_unlink h.thread hg hn₁ hn₂ hes hfs hdis
    let l₀ : Shortcuts := { l with arena := l.arena.erase k, size := l.size - 1 }
    refine ⟨wellFormed_setPrev (wellFormed_setNext (Arena.wellFormed_erase h.arena k) _ _) _ _,
      hclosed, ?_, fun k' b hb => ?_, ?_⟩
    · rw [← hfil]
      exact h.nodup.sublist (List.filter_sublist.map _)
    · have hb : ((l₀.setNext prev next).setPrev next prev).block? k' = some b := hb
      rw [block?_setPrev, block?_setNext] at hb
      change ((l.arena.erase k).get? k').map ShortcutNode.block = some b at hb
      rw [Arena.get?_erase] at hb
      split at hb
      · cases hb
      · rename_i hk
        rw [← hfil, List.mem_filter]
        exact ⟨h.covers k' b hb, by simpa using fun h' : k' = k => hk h'.symm⟩
    · have hsz := h.size
      simp only [size_setPrev, size_setNext, hsz, List.length_append, List.length_cons]
      omega

/-- A handle is released exactly if it led to a shortcut. -/
theorem erase_snd (l : Shortcuts) (k : Handle) : (l.erase k).2 = (l.block? k).isSome := by
  unfold erase block?
  cases l.arena.get? k <;> rfl

/-- Releasing a shortcut takes one off the length. -/
theorem size_erase {l : Shortcuts} {es : List (Handle × BlockRef)} (h : l.Holds es) (k : Handle) :
    (l.erase k).1.size + (l.erase k).2.toNat = l.size := by
  unfold erase
  cases hg : l.arena.get? k with
  | none => rfl
  | some node =>
    have hm : (k, node.block) ∈ es := h.covers k node.block (by simp [block?, hg])
    have hpos := List.length_pos_of_mem hm
    have hsize := h.size
    simp only [size_setPrev, size_setNext, Bool.toNat_true]
    omega

theorem holds_eraseEach {l : Shortcuts} {es : List (Handle × BlockRef)} (h : l.Holds es)
    (hs : List Handle) : (l.eraseEach hs).1.Holds (es.filter (·.1 ∉ hs)) := by
  induction hs generalizing l es with
  | nil => simpa [eraseEach] using h
  | cons k hs ih =>
    have hrest := ih (holds_erase h k)
    have heq : es.filter (fun e => e.1 ∉ k :: hs) =
        es.filter (fun e => decide (e.1 ∉ hs) && decide (e.1 ≠ k)) :=
      List.filter_congr fun e _ => by simp [Bool.and_comm]
    rw [List.filter_filter] at hrest
    rw [heq]
    exact hrest

theorem size_eraseEach {l : Shortcuts} {es : List (Handle × BlockRef)} (h : l.Holds es)
    (hs : List Handle) : (l.eraseEach hs).1.size + (l.eraseEach hs).2 = l.size := by
  induction hs generalizing l es with
  | nil => rfl
  | cons k hs ih =>
    have hone := size_erase h k
    have hrest := ih (holds_erase h k)
    show ((l.erase k).1.eraseEach hs).1.size +
      ((l.erase k).2.toNat + ((l.erase k).1.eraseEach hs).2) = l.size
    omega

/-! ### The list after an operation -/

namespace WellFormed

variable {l : Shortcuts}

theorem empty : Shortcuts.empty.WellFormed := holds_empty.wellFormed

theorem push (h : l.WellFormed) (b : BlockRef) : (l.push b).1.WellFormed := (holds_push h b).wellFormed

theorem erase (h : l.WellFormed) (k : Handle) : (l.erase k).1.WellFormed :=
  (holds_erase h k).wellFormed

theorem lookup (h : l.WellFormed) (alive : Nat → Bool) (block device : String) (number : UInt32) :
    (l.lookup alive block device number).1.WellFormed := (holds_eraseEach h _).wellFormed

theorem purge (h : l.WellFormed) (alive : Nat → Bool) (deleted : Option Nat) :
    (l.purge alive deleted).1.WellFormed := (holds_eraseEach h _).wellFormed

theorem isEmpty_iff (h : l.WellFormed) : l.isEmpty = true ↔ l.blocks = [] := by
  unfold isEmpty blocks
  rw [h.size, beq_iff_eq, List.length_eq_zero_iff, List.map_eq_nil_iff]

end WellFormed

theorem toList_push {l : Shortcuts} (h : l.WellFormed) (b : BlockRef) :
    (l.push b).1.toList = l.toList ++ [((l.push b).2, b)] := (holds_push h b).toList_eq

theorem blocks_push {l : Shortcuts} (h : l.WellFormed) (b : BlockRef) :
    (l.push b).1.blocks = l.blocks ++ [b] := by
  unfold blocks
  rw [toList_push h, List.map_append, List.map_singleton]

/-- What is purged are the shortcuts to the deleted block and to dead ones. -/
theorem toList_purge {l : Shortcuts} (h : l.WellFormed) (alive : Nat → Bool) (deleted : Option Nat) :
    (l.purge alive deleted).1.toList =
      l.toList.filter fun e => alive e.2.id && deleted != some e.2.id := by
  unfold purge
  rw [(holds_eraseEach h _).toList_eq, filter_not_mem_handles h.nodup]
  refine List.filter_congr fun e _ => ?_
  rw [Bool.not_or, Bool.not_not, Bool.and_comm]
  rfl

theorem mem_blocks_purge {l : Shortcuts} (h : l.WellFormed) (alive : Nat → Bool)
    (deleted : Option Nat) (b : BlockRef) : b ∈ (l.purge alive deleted).1.blocks ↔
      b ∈ l.blocks ∧ alive b.id = true ∧ deleted ≠ some b.id := by
  unfold blocks
  rw [toList_purge h, List.mem_map, List.mem_map]
  constructor
  · rintro ⟨e, he, rfl⟩
    rw [List.mem_filter, Bool.and_eq_true, bne_iff_ne] at he
    exact ⟨⟨e, he.1, rfl⟩, he.2⟩
  · rintro ⟨⟨e, he, rfl⟩, hk⟩
    exact ⟨e, List.mem_filter.2 ⟨he, by rwa [Bool.and_eq_true, bne_iff_ne]⟩, rfl⟩

/-- Taken from some entries of a list, entries end where one of these ends them. -/
theorem takeWhile_filter {β : Type} (p q : β → Bool) (l : List β) :
    (l.filter p).takeWhile q = (l.takeWhile fun e => !(p e && !q e)).filter p := by
  induction l with
  | nil => rfl
  | cons e l ih => cases hp : p e <;> cases hq : q e <;> simp [hp, hq, ih]

/-- A search finds the first living block of the name, device and number. -/
theorem lookup_snd (l : Shortcuts) (alive : Nat → Bool) (block device : String) (number : UInt32) :
    (l.lookup alive block device number).2 =
      (l.toList.find? fun e => e.2.identity.isOf block device number && alive e.2.id).map Prod.snd := by
  have hfirst := List.find?_eq_head?_dropWhile_not (fun e : Handle × BlockRef => alive e.2.id)
    (l.toList.filter fun e => e.2.identity.isOf block device number)
  unfold lookup
  simp only
  rw [← hfirst, List.find?_filter]
  simp only [Bool.decide_and, Bool.decide_eq_true]

/-- The shortcuts that a search releases are those of the name to blocks that
are gone, before the first living one. -/
theorem toList_lookup {l : Shortcuts} (h : l.WellFormed) (alive : Nat → Bool)
    (block device : String) (number : UInt32) :
    let hit (e : Handle × BlockRef) := e.2.identity.isOf block device number && alive e.2.id
    let stale (e : Handle × BlockRef) := e.2.identity.isOf block device number && !alive e.2.id
    (l.lookup alive block device number).1.toList =
      ((l.toList.takeWhile fun e => !hit e).filter fun e => !stale e) ++
        l.toList.dropWhile fun e => !hit e := by
  intro hit stale
  let met := l.toList.takeWhile fun e => !hit e
  let rest := l.toList.dropWhile fun e => !hit e
  have hsplit : l.toList = met ++ rest := List.takeWhile_append_dropWhile.symm
  have hn := h.nodup
  rw [hsplit, List.map_append, List.nodup_append] at hn
  obtain ⟨hmet, -, hdis⟩ := hn
  have hgone : (l.toList.filter fun e => e.2.identity.isOf block device number).takeWhile
      (fun e => !alive e.2.id) = met.filter stale := by
    rw [takeWhile_filter]
    simp only [Bool.not_not]
    -- What is met of the name is gone, or the search would have ended there.
    refine List.filter_congr fun e he => ?_
    have hnot := List.mem_takeWhile_imp he
    simp only [stale, Bool.not_eq_true', Bool.and_eq_false_imp] at hnot ⊢
    cases hof : e.2.identity.isOf block device number
    · rfl
    · rw [hnot hof]; rfl
  have hrest : rest.filter (·.1 ∉ (met.filter stale).map Prod.fst) = rest := by
    refine List.filter_eq_self.2 fun e he => ?_
    rw [decide_eq_true_iff]
    intro hm
    obtain ⟨e', he', hk⟩ := List.mem_map.1 hm
    have hmem := List.mem_map_of_mem (f := Prod.fst) (List.mem_of_mem_filter he')
    exact hdis e'.1 hmem e.1 (List.mem_map_of_mem he) hk
  show _ = (met.filter fun e => !stale e) ++ rest
  unfold lookup
  simp only
  rw [hgone, (holds_eraseEach h _).toList_eq, hsplit, List.filter_append,
    filter_not_mem_handles hmet, hrest]

/-- A search keeps the order of the shortcuts and adds none. -/
theorem toList_lookup_sublist {l : Shortcuts} (h : l.WellFormed) (alive : Nat → Bool)
    (block device : String) (number : UInt32) :
    (l.lookup alive block device number).1.toList.Sublist l.toList := by
  unfold lookup
  rw [(holds_eraseEach h _).toList_eq]
  exact List.filter_sublist

/-- A search releases no shortcut to a living block. -/
theorem mem_toList_lookup {l : Shortcuts} (h : l.WellFormed) {alive : Nat → Bool}
    (block device : String) (number : UInt32) {e : Handle × BlockRef} (he : e ∈ l.toList)
    (ha : alive e.2.id = true) : e ∈ (l.lookup alive block device number).1.toList := by
  unfold lookup
  rw [(holds_eraseEach h _).toList_eq, List.mem_filter, decide_eq_true_iff]
  refine ⟨he, fun hm => ?_⟩
  obtain ⟨e', he', hk⟩ := List.mem_map.1 hm
  have hsub : e' ∈ l.toList := List.mem_of_mem_filter ((List.takeWhile_sublist _).subset he')
  have hdead := List.mem_takeWhile_imp he'
  rw [List.inj_on_of_nodup_map h.nodup hsub he hk, ha] at hdead
  cases hdead

/-- A search finds a living block of the name, device and number, among those
that have a shortcut. -/
theorem lookup_eq_some {l : Shortcuts} {alive : Nat → Bool} {block device : String}
    {number : UInt32} {b : BlockRef} (hb : (l.lookup alive block device number).2 = some b) :
    b ∈ l.blocks ∧ alive b.id = true ∧ b.identity.isOf block device number = true := by
  rw [lookup_snd] at hb
  obtain ⟨e, he, rfl⟩ := Option.map_eq_some_iff.1 hb
  have hhit := List.find?_some he
  rw [Bool.and_eq_true] at hhit
  exact ⟨List.mem_map_of_mem (List.mem_of_find?_eq_some he), hhit.2, hhit.1⟩

/-- A search releases no shortcut if the first of the name leads to a living block. -/
theorem lookup_of_first {l : Shortcuts} (alive : Nat → Bool) {block device : String}
    {number : UInt32} (hfirst : ∀ e,
      l.toList.find? (fun e => e.2.identity.isOf block device number) = some e →
        alive e.2.id = true) :
    l.lookup alive block device number = (l, (l.toList.find? fun e =>
      e.2.identity.isOf block device number).map Prod.snd) := by
  rw [← List.head?_filter] at hfirst ⊢
  unfold lookup
  simp only
  cases hnamed : l.toList.filter fun e => e.2.identity.isOf block device number with
  | nil => rfl
  | cons e es =>
    have ha := hfirst e (by rw [hnamed]; rfl)
    rw [List.takeWhile_cons_of_neg (by simp [ha]), List.dropWhile_cons_of_neg (by simp [ha])]
    rfl

/-- A search among shortcuts to living blocks releases none. -/
theorem lookup_of_living {l : Shortcuts} {alive : Nat → Bool}
    (hl : ∀ b ∈ l.blocks, alive b.id = true) (block device : String) (number : UInt32) :
    l.lookup alive block device number =
      (l, l.blocks.find? fun b => b.identity.isOf block device number) := by
  rw [lookup_of_first alive fun e he => hl e.2 (List.mem_map_of_mem (List.mem_of_find?_eq_some he)),
    blocks, List.find?_map]
  rfl

/-- A handle is found exactly if there is a shortcut to the block. -/
theorem handleOf?_isSome (l : Shortcuts) (id : Nat) :
    (l.handleOf? id).isSome = true ↔ ∃ b ∈ l.blocks, b.id = id := by
  unfold handleOf? blocks
  rw [Option.isSome_map, List.find?_isSome]
  constructor
  · rintro ⟨e, he, hid⟩
    exact ⟨e.2, List.mem_map_of_mem he, beq_iff_eq.1 hid⟩
  · rintro ⟨b, hb, hid⟩
    obtain ⟨e, he, rfl⟩ := List.mem_map.1 hb
    exact ⟨e, he, beq_iff_eq.2 hid⟩

end Shortcuts
end SignalRegistry
