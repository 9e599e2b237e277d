/-
# What a list of shortcuts shows over a whole run

Shortcuts are appended, released, searched, purged and cleared while blocks lose
their last strong handle. A `Roster` keeps the same entries as a plain list,
without an arena or links, and notes which handles were given out. Each
operation on the linked list is a step of the roster with the same answer
(`Tracks.act`), so each run is one of its runs.

A handle is a name that no entry has. That it is not the name of an entry that
was removed is no part of a step: it follows from the generations of the cells,
which do not wrap before 2^32 entries were removed.

Key definitions: `Shortcuts.Action`, `Shortcuts.Setting`, `Roster`,
`Roster.Step`, `Shortcuts.Setting.Tracks`, `Shortcuts.Setting.Shows`.
Key theorems: `Shortcuts.Setting.Tracks.act`, `Shortcuts.Setting.Tracks.run`,
`Shortcuts.Setting.Tracks.shows`, `Roster.Run.issued`.
-/
import SignalRegistry.Proofs.Refinement
import SignalRegistry.Proofs.Shortcuts

namespace SignalRegistry
namespace Shortcuts

/-! ### Runs -/

/-- An operation on a list of shortcuts, or a block that loses its last strong
handle. -/
inductive Action where
  | push (block : BlockRef)
  | erase (h : Handle)
  | lookup (block device : String) (number : UInt32)
  | purge (deleted : Option Nat)
  | clear
  | lose (id : Nat)

inductive Answer where
  | handle (h : Handle)
  | released (there : Bool)
  | block (b? : Option BlockRef)
  | count (n : Nat)
  | done

/-- A list of shortcuts and the blocks that are gone. -/
structure Setting where
  list : Shortcuts := .empty
  gone : List Nat := []

/-- The block is not among those that are gone. -/
def isLiving (gone : List Nat) (id : Nat) : Bool := !gone.contains id

namespace Setting

def act (t : Setting) : Action → Setting × Answer
  | .push b => ({ t with list := (t.list.push b).1 }, .handle (t.list.push b).2)
  | .erase h => ({ t with list := (t.list.erase h).1 }, .released (t.list.erase h).2)
  | .lookup block device number =>
    let found := t.list.lookup (isLiving t.gone) block device number
    ({ t with list := found.1 }, .block found.2)
  | .purge deleted =>
    let rest := t.list.purge (isLiving t.gone) deleted
    ({ t with list := rest.1 }, .count rest.2)
  | .clear => ({ t with list := .empty }, .done)
  | .lose id => ({ t with gone := id :: t.gone }, .done)

def run (t : Setting) (actions : List Action) : Setting × List Answer := runEach act t actions

end Setting

end Shortcuts

/-! ### The plain list -/

/-- The entries in order, with what happened since the list was cleared last. -/
structure Roster where
  entries : List (Handle × BlockRef) := []
  gone : List Nat := []
  /-- The handles given out, in order. -/
  issued : List Handle := []
  /-- How many entries were taken out. -/
  removed : Nat := 0

namespace Roster

open Shortcuts (isLiving)

/-- A shortcut to a living block of this name, device and number. -/
def hit (s : Roster) (block device : String) (number : UInt32) (e : Handle × BlockRef) : Bool :=
  e.2.identity.isOf block device number && isLiving s.gone e.2.id

/-- A shortcut to a block of this name, device and number that is gone. -/
def stale (s : Roster) (block device : String) (number : UInt32) (e : Handle × BlockRef) : Bool :=
  e.2.identity.isOf block device number && !isLiving s.gone e.2.id

/-- A shortcut to the deleted block or one that is gone. -/
def doomed (s : Roster) (deleted : Option Nat) (e : Handle × BlockRef) : Bool :=
  deleted == some e.2.id || !isLiving s.gone e.2.id

/-- These entries are left, and the others were taken out. -/
def leave (s : Roster) (rest : List (Handle × BlockRef)) : Roster :=
  { s with entries := rest, removed := s.removed + (s.entries.length - rest.length) }

/-- What an operation does to the plain list, with its answer. -/
inductive Step : Roster → Shortcuts.Action → Shortcuts.Answer → Roster → Prop
  | push {s : Roster} {b : BlockRef} {h : Handle} (fresh : ∀ e ∈ s.entries, e.1 ≠ h) :
    Step s (.push b) (.handle h)
      { s with entries := s.entries ++ [(h, b)], issued := s.issued ++ [h] }
  | erase {s : Roster} {h : Handle} :
    Step s (.erase h) (.released (s.entries.any (·.1 == h))) (s.leave (s.entries.filter (·.1 ≠ h)))
  | lookup {s : Roster} {block device : String} {number : UInt32} :
    Step s (.lookup block device number)
      (.block ((s.entries.find? (s.hit block device number)).map Prod.snd))
      (s.leave (((s.entries.takeWhile fun e => !s.hit block device number e).filter
        fun e => !s.stale block device number e) ++
          s.entries.dropWhile fun e => !s.hit block device number e))
  | purge {s : Roster} {deleted : Option Nat} :
    Step s (.purge deleted) (.count (s.entries.filter (s.doomed deleted)).length)
      (s.leave (s.entries.filter fun e => !s.doomed deleted e))
  | clear {s : Roster} : Step s .clear .done { gone := s.gone }
  | lose {s : Roster} {id : Nat} : Step s (.lose id) .done { s with gone := id :: s.gone }

abbrev Run : Roster → List Shortcuts.Action → List Shortcuts.Answer → Roster → Prop := Steps Step

/-- Until the list is cleared, handles are only added to those given out, and an
entry that was not there has one of the new ones. -/
theorem Step.issued {s s' : Roster} {action : Shortcuts.Action} {answer : Shortcuts.Answer}
    (h : Step s action answer s') (hc : action ≠ .clear) :
    ∃ new, s'.issued = s.issued ++ new ∧ ∀ e ∈ s'.entries, e ∈ s.entries ∨ e.1 ∈ new := by
  cases h with
  | @push b k fresh =>
    refine ⟨[k], rfl, fun e he => ?_⟩
    rcases List.mem_append.1 he with he | he
    · exact Or.inl he
    · rw [List.mem_singleton.1 he]
      exact Or.inr (List.mem_singleton_self k)
  | erase => exact ⟨[], by simp [leave], fun e he => Or.inl (List.mem_of_mem_filter he)⟩
  | lookup =>
    refine ⟨[], by simp [leave], fun e he => Or.inl ?_⟩
    rcases List.mem_append.1 he with he | he
    · exact (List.takeWhile_sublist _).subset (List.mem_of_mem_filter he)
    · exact (List.dropWhile_sublist _).subset he
  | purge => exact ⟨[], by simp [leave], fun e he => Or.inl (List.mem_of_mem_filter he)⟩
  | clear => exact absurd rfl hc
  | lose => exact ⟨[], by simp, fun e he => Or.inl he⟩

theorem Run.issued {s s' : Roster} {actions : List Shortcuts.Action}
    {answers : List Shortcuts.Answer} (h : Run s actions answers s') (hc : .clear ∉ actions) :
    ∃ new, s'.issued = s.issued ++ new ∧ ∀ e ∈ s'.entries, e ∈ s.entries ∨ e.1 ∈ new := by
  induction h with
  | nil => exact ⟨[], by simp, fun e he => Or.inl he⟩
  | cons hstep _ ih =>
    rw [List.mem_cons, not_or] at hc
    obtain ⟨new, heq, hnew⟩ := hstep.issued (Ne.symm hc.1)
    obtain ⟨more, heq', hmore⟩ := ih hc.2
    refine ⟨new ++ more, by rw [heq', heq, List.append_assoc], fun e he => ?_⟩
    rcases hmore e he with he | he
    · exact (hnew e he).imp_right (List.mem_append_left more)
    · exact Or.inr (List.mem_append_right new he)

/-- An entry taken out does not come back under its handle. -/
theorem Run.notMem {s s' : Roster} {actions : List Shortcuts.Action}
    {answers : List Shortcuts.Answer} (h : Run s actions answers s') (hc : .clear ∉ actions)
    (hn : s'.issued.Nodup) {k : Handle} (hk : k ∈ s.issued) (hgone : ∀ e ∈ s.entries, e.1 ≠ k) :
    ∀ e ∈ s'.entries, e.1 ≠ k := by
  obtain ⟨new, heq, hnew⟩ := h.issued hc
  rw [heq, List.nodup_append] at hn
  intro e he hek
  rcases hnew e he with hm | hm
  · exact hgone e hm hek
  · exact hn.2.2 k hk e.1 hm hek.symm

end Roster

namespace Shortcuts

/-! ### Handles given out by the list -/

variable {l : Shortcuts} {handles : List Handle} {removed : Nat}

theorem issued_setNext (h : l.arena.Issued handles removed) (at? next : Option Handle) :
    (l.setNext at? next).arena.Issued handles removed := by
  unfold setNext
  split
  · exact h.modify _ _
  · exact h

theorem issued_setPrev (h : l.arena.Issued handles removed) (at? prev : Option Handle) :
    (l.setPrev at? prev).arena.Issued handles removed := by
  unfold setPrev
  split
  · exact h.modify _ _
  · exact h

theorem issued_push (h : l.arena.Issued handles removed) (ha : l.arena.WellFormed) (b : BlockRef) :
    (l.push b).1.arena.Issued (handles ++ [(l.push b).2]) removed :=
  issued_setNext (l := { l with arena := (l.arena.insert ⟨b, l.tail, none⟩).1 }) (h.insert ha _) _ _

theorem issued_erase (h : l.arena.Issued handles removed) (k : Handle)
    (hlt : removed + (l.erase k).2.toNat < UInt32.size) :
    (l.erase k).1.arena.Issued handles (removed + (l.erase k).2.toNat) := by
  unfold erase at hlt ⊢
  cases hg : l.arena.get? k with
  | none => exact h
  | some node =>
    rw [hg] at hlt
    exact issued_setPrev (issued_setNext (l := { l with arena := l.arena.erase k, size := l.size - 1 })
      (h.erase (by rw [hg]; rfl) hlt) _ _) _ _

theorem issued_eraseEach (h : l.arena.Issued handles removed) (hs : List Handle)
    (hlt : removed + (l.eraseEach hs).2 < UInt32.size) :
    (l.eraseEach hs).1.arena.Issued handles (removed + (l.eraseEach hs).2) := by
  induction hs generalizing l removed with
  | nil => exact h
  | cons k hs ih =>
    have hcount : (l.eraseEach (k :: hs)).2 = (l.erase k).2.toNat + ((l.erase k).1.eraseEach hs).2 :=
      rfl
    rw [hcount, ← Nat.add_assoc] at hlt ⊢
    exact ih (issued_erase h k (by omega)) hlt

namespace Setting

/-! ### The linked list tracks the plain one -/

/-- The list holds the entries, the same blocks are gone, and no handle was given
out twice. -/
structure Tracks (t : Setting) (s : Roster) : Prop where
  holds : t.list.Holds s.entries
  gone : t.gone = s.gone
  issued : s.removed < UInt32.size → t.list.arena.Issued s.issued s.removed

namespace Tracks

variable {t : Setting} {s : Roster}

theorem empty : Tracks {} {} := ⟨holds_empty, rfl, fun _ => .empty⟩

theorem push (h : t.Tracks s) (b : BlockRef) :
    Tracks { t with list := (t.list.push b).1 }
      { s with
        entries := s.entries ++ [((t.list.push b).2, b)]
        issued := s.issued ++ [(t.list.push b).2] } :=
  ⟨holds_push h.holds b, h.gone, fun hlt => issued_push (h.issued hlt) h.holds.arena b⟩

/-- Whatever is released is counted. -/
theorem eraseEach (h : t.Tracks s) (hs : List Handle) :
    Tracks { t with list := (t.list.eraseEach hs).1 } (s.leave (t.list.eraseEach hs).1.toList) := by
  have hholds := holds_eraseEach h.holds hs
  have hcount : (t.list.eraseEach hs).2 = s.entries.length - (t.list.eraseEach hs).1.toList.length := by
    have hsize := size_eraseEach h.holds hs
    rw [hholds.size, h.holds.size, ← hholds.toList_eq] at hsize
    omega
  refine ⟨hholds.wellFormed, h.gone, fun hlt => ?_⟩
  simp only [Roster.leave, ← hcount] at hlt ⊢
  exact issued_eraseEach (h.issued (by omega)) hs hlt

theorem erase (h : t.Tracks s) (k : Handle) :
    Tracks { t with list := (t.list.erase k).1 } (s.leave (s.entries.filter (·.1 ≠ k))) := by
  rw [← (holds_erase h.holds k).toList_eq]
  exact h.eraseEach [k]

theorem lookup (h : t.Tracks s) (block device : String) (number : UInt32) :
    Tracks { t with list := (t.list.lookup (isLiving t.gone) block device number).1 }
      (s.leave (((s.entries.takeWhile fun e => !s.hit block device number e).filter
        fun e => !s.stale block device number e) ++
          s.entries.dropWhile fun e => !s.hit block device number e)) := by
  have hrest := toList_lookup h.holds.wellFormed (isLiving t.gone) block device number
  rw [h.holds.toList_eq, h.gone] at hrest
  unfold Roster.hit Roster.stale
  rw [← hrest, ← h.gone]
  exact h.eraseEach _

theorem purge (h : t.Tracks s) (deleted : Option Nat) :
    Tracks { t with list := (t.list.purge (isLiving t.gone) deleted).1 }
      (s.leave (s.entries.filter fun e => !s.doomed deleted e)) := by
  have hrest : (t.list.purge (isLiving t.gone) deleted).1.toList =
      s.entries.filter fun e => !s.doomed deleted e := by
    rw [toList_purge h.holds.wellFormed, h.holds.toList_eq, h.gone]
    refine List.filter_congr fun e _ => ?_
    rw [Roster.doomed, Bool.not_or, Bool.not_not, Bool.and_comm]
    rfl
  rw [← hrest]
  exact h.eraseEach _

/-- The answer to a purge is how many entries it took out. -/
theorem purge_snd (h : t.Tracks s) (deleted : Option Nat) :
    (t.list.purge (isLiving t.gone) deleted).2 = (s.entries.filter (s.doomed deleted)).length := by
  have hsize : (t.list.purge (isLiving t.gone) deleted).1.size +
      (t.list.purge (isLiving t.gone) deleted).2 = t.list.size := size_eraseEach h.holds _
  have hrest := (h.purge deleted).holds.size
  have hsum := List.length_eq_length_filter_add (l := s.entries) (s.doomed deleted)
  rw [h.holds.size] at hsize
  simp only [Roster.leave] at hrest
  omega

theorem erase_snd (h : t.Tracks s) (k : Handle) :
    (t.list.erase k).2 = s.entries.any (·.1 == k) := by
  rw [Shortcuts.erase_snd, Bool.eq_iff_iff, Option.isSome_iff_exists, List.any_eq_true]
  constructor
  · rintro ⟨b, hb⟩
    exact ⟨(k, b), (h.holds.mem_iff k b).2 hb, beq_self_eq_true k⟩
  · rintro ⟨e, he, hk⟩
    rw [← beq_iff_eq.1 hk]
    exact ⟨e.2, (h.holds.mem_iff e.1 e.2).1 he⟩

/-- An operation on the linked list is one on the plain list, with the same
answer. -/
theorem act (h : t.Tracks s) (action : Action) :
    ∃ s', s.Step action (t.act action).2 s' ∧ (t.act action).1.Tracks s' := by
  cases action with
  | push b =>
    refine ⟨_, .push fun e he hk => ?_, h.push b⟩
    have hget := (h.holds.mem_iff e.1 e.2).1 he
    have hnew : (t.list.push b).2 = t.list.arena.nextHandle := rfl
    rw [hk, hnew, block?, Arena.get?_nextHandle h.holds.arena] at hget
    cases hget
  | erase k =>
    refine ⟨_, ?_, h.erase k⟩
    show s.Step _ (.released (t.list.erase k).2) _
    rw [h.erase_snd]
    exact .erase
  | lookup block device number =>
    refine ⟨_, ?_, h.lookup block device number⟩
    have hfound := lookup_snd t.list (isLiving t.gone) block device number
    rw [h.holds.toList_eq, h.gone] at hfound
    show s.Step _ (.block (t.list.lookup (isLiving t.gone) block device number).2) _
    rw [h.gone, hfound]
    exact .lookup
  | purge deleted =>
    refine ⟨_, ?_, h.purge deleted⟩
    show s.Step _ (.count (t.list.purge (isLiving t.gone) deleted).2) _
    rw [h.purge_snd]
    exact .purge
  | clear => exact ⟨_, .clear, ⟨holds_empty, h.gone, fun _ => .empty⟩⟩
  | lose id => exact ⟨_, .lose, ⟨h.holds, congrArg (id :: ·) h.gone, h.issued⟩⟩

/-- A run of the linked list is a run of the plain one. -/
theorem run (h : t.Tracks s) (actions : List Action) :
    ∃ s', s.Run actions (t.run actions).2 s' ∧ (t.run actions).1.Tracks s' :=
  Steps.of_tracks (fun _ _ action h => h.act action) h actions

end Tracks

/-! ### What the list shows -/

/-- Every way to look into the linked list shows the entries of the plain one. -/
structure Shows (t : Setting) (s : Roster) : Prop where
  block? : ∀ h b, t.list.block? h = some b ↔ (h, b) ∈ s.entries
  forward : t.list.toList = s.entries
  back : t.list.toListBack = s.entries.reverse
  /-- Either way the links come to an end, however far they are followed. -/
  ends : ∀ fuel, s.entries.length ≤ fuel →
    follow t.list.arena ShortcutNode.next fuel t.list.head = s.entries ∧
    follow t.list.arena ShortcutNode.prev fuel t.list.tail = s.entries.reverse
  once : (s.entries.map Prod.fst).Nodup
  size : t.list.size = s.entries.length
  isEmpty : t.list.isEmpty = s.entries.isEmpty
  blocks : t.list.blocks = s.entries.map Prod.snd
  living : t.list.living (isLiving t.gone) =
    (s.entries.filter fun e => isLiving s.gone e.2.id).map Prod.snd
  handleOf? : ∀ id, t.list.handleOf? id = (s.entries.find? (·.2.id == id)).map Prod.fst

namespace Tracks

variable {t : Setting} {s : Roster}

theorem shows (h : t.Tracks s) : t.Shows s where
  block? k b := (h.holds.mem_iff k b).symm
  forward := h.holds.toList_eq
  back := h.holds.toListBack_eq
  ends _ hle := ⟨h.holds.thread.follow_next hle, h.holds.thread.follow_prev hle⟩
  once := h.holds.nodup
  size := h.holds.size
  isEmpty := by
    unfold isEmpty
    rw [h.holds.size]
    cases s.entries <;> rfl
  blocks := by rw [blocks, h.holds.toList_eq]
  living := by
    rw [Shortcuts.living, blocks, h.holds.toList_eq, h.gone, List.filter_map]
    rfl
  handleOf? id := by rw [Shortcuts.handleOf?, h.holds.toList_eq]

/-- A handle that no entry has releases nothing and is never found. -/
theorem stale (h : t.Tracks s) {k : Handle} (hk : ∀ e ∈ s.entries, e.1 ≠ k) :
    t.list.erase k = (t.list, false) ∧ t.list.block? k = none ∧ ∀ id, t.list.handleOf? id ≠ some k := by
  have hnone : t.list.block? k = none := by
    rw [Option.eq_none_iff_forall_ne_some]
    exact fun b hb => hk _ (h.holds.covers k b hb) rfl
  refine ⟨?_, hnone, fun id hid => ?_⟩
  · rw [block?, Option.map_eq_none_iff] at hnone
    rw [Shortcuts.erase, hnone]
  · rw [h.shows.handleOf?] at hid
    obtain ⟨e, he, rfl⟩ := Option.map_eq_some_iff.1 hid
    exact hk e (List.mem_of_find?_eq_some he) rfl

end Tracks

/-- **The list of shortcuts is a plain list.** Every run of operations on an empty
list, and every run after it, is a run of the plain list with the same answers, and
the list shows its entries. While fewer than 2^32 entries were taken out since the
list was cleared last, no handle was given out twice; a handle of an entry taken out
before the second run then leads nowhere after it. -/
theorem shows_roster (actions later : List Action) :
    let t := (run {} actions).1
    let t' := (t.run later).1
    ∃ s s', Roster.Run {} actions (run {} actions).2 s ∧ s.Run later (t.run later).2 s' ∧
      t.Shows s ∧ t'.Shows s' ∧ (s'.removed < UInt32.size → s'.issued.Nodup ∧
        (.clear ∉ later → ∀ h ∈ s.issued, (∀ e ∈ s.entries, e.1 ≠ h) →
          t'.list.erase h = (t'.list, false) ∧ t'.list.block? h = none ∧
          ∀ id, t'.list.handleOf? id ≠ some h)) := by
  intro t t'
  have hempty : Tracks {} {} := .empty
  obtain ⟨s, hrun, h⟩ := hempty.run actions
  obtain ⟨s', hrun', h'⟩ := h.run later
  refine ⟨s, s', hrun, hrun', h.shows, h'.shows, fun hlt => ?_⟩
  have hn := (h'.issued hlt).nodup
  exact ⟨hn, fun hc k hk hgone => h'.stale (hrun'.notMem hc hn hk hgone)⟩

/-- The first block of a device. -/
def ginaExp : BlockRef := ⟨1, .ofNames "exp" "gina" 1 "n"⟩

/-- A shortcut that comes into the cell of one taken out has another handle; the
old one releases nothing. -/
theorem shows_roster_ginaExp :
    let t := (run {} [.push ginaExp, .erase ⟨0, 0⟩]).1
    let t' := (t.run [.push ginaExp]).1
    t'.list.toList = [(⟨0, 1⟩, ginaExp)] ∧ t'.list.erase ⟨0, 0⟩ = (t'.list, false) := by
  intro t t'
  refine ⟨rfl, ?_⟩
  obtain ⟨s, s', hrun, hrun', -, -, hstale⟩ :=
    shows_roster [.push ginaExp, .erase ⟨0, 0⟩] [.push ginaExp]
  obtain ⟨answer, hanswers⟩ : ∃ answer, (run {} [.push ginaExp, .erase ⟨0, 0⟩]).2 =
      [.handle ⟨0, 0⟩, answer] := ⟨.released true, rfl⟩
  have hanswers' : (t.run [.push ginaExp]).2 = [.handle ⟨0, 1⟩] := rfl
  rw [hanswers] at hrun
  rw [hanswers'] at hrun'
  -- The steps of the runs are known, and with them what they leave.
  obtain _ | ⟨⟨-⟩, _ | ⟨⟨⟩, ⟨⟩⟩⟩ := hrun
  obtain _ | ⟨⟨-⟩, ⟨⟩⟩ := hrun'
  have hlt : 0 + (1 - 0) < UInt32.size := by decide
  exact ((hstale hlt).2 (by simp) ⟨0, 0⟩ (by simp [Roster.leave]) (by simp [Roster.leave])).1

end Setting
end Shortcuts
end SignalRegistry
