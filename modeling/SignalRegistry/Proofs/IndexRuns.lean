/-
# What an index shows over a whole run

Whatever is done to an index, what it shows are lists, one a bucket. `Shelves`
keep them as lists, without an arena, links or heads: an insertion appends to
the list of its key's bucket, a removal takes one entry out, and a handle is
nothing but a name that no entry has yet. The shelves also keep all entries in
the order of their insertion, across the buckets, which no index does.

An index tracks the shelves (`Index.Tracks`): each operation on it is a step of
the shelves with the same answer (`Tracks.act`), so each run is one of theirs.
An index that tracks the shelves shows their lists, whichever way it is asked
(`Tracks.shows`).

Key definitions: `Index.Action`, `Index.run`, `Shelves`, `Shelves.Step`,
`Index.Tracks`, `Index.Shows`.
Key theorems: `Index.Tracks.act`, `Index.Tracks.run`, `Index.Tracks.shows`.
-/
import SignalRegistry.Proofs.Index
import SignalRegistry.Proofs.Refinement
import SignalRegistry.Signal

namespace SignalRegistry

variable {α : Type} {buckets : Nat}

/-! ### Lists on shelves -/

/-- The lists of all buckets. -/
structure Shelves (α : Type) (buckets : Nat) where
  lists : Fin buckets → List (Handle × α)
  /-- The entries of all lists, the one inserted first before all others. -/
  order : List (Handle × α)

namespace Shelves

def empty : Shelves α buckets := ⟨fun _ => [], []⟩

/-- All entries, bucket by bucket. -/
def entries (s : Shelves α buckets) : List (Handle × α) := (List.finRange buckets).flatMap s.lists

/-- Appends an entry to the list of a bucket. -/
def append (s : Shelves α buckets) (b : Fin buckets) (e : Handle × α) : Shelves α buckets :=
  ⟨Function.update s.lists b (s.lists b ++ [e]), s.order ++ [e]⟩

/-- Keeps the entries that satisfy `p`. -/
def keep (s : Shelves α buckets) (p : Handle × α → Bool) : Shelves α buckets :=
  ⟨fun b => (s.lists b).filter p, s.order.filter p⟩

/-- Changes the item of a handle where it stands. -/
def change (s : Shelves α buckets) (h : Handle) (f : α → α) : Shelves α buckets :=
  let at? (e : Handle × α) := (e.1, if h = e.1 then f e.2 else e.2)
  ⟨fun b => (s.lists b).map at?, s.order.map at?⟩

end Shelves

variable [HasKey α] [Spreads buckets]

namespace Index

/-! ### Runs -/

/-- An operation on an index. A change of an item must keep its key. -/
inductive Action (α : Type) [HasKey α] where
  | insert (item : α)
  | erase (h : Handle)
  | eraseWhere (p : α → Bool)
  | modify (h : Handle) (f : α → α) (keeps : ∀ x, HasKey.key (f x) = HasKey.key x)
  | clear

/-- What an operation returns; a change returns the item that it found. -/
inductive Answer (α : Type) where
  | handle (h : Handle)
  | item (x? : Option α)
  | items (xs : List α)
  | done

def act (t : Index α buckets) : Action α → Index α buckets × Answer α
  | .insert x => ((t.insert x).1, .handle (t.insert x).2)
  | .erase h => ((t.erase h).1, .item (t.erase h).2)
  | .eraseWhere p => ((t.eraseWhere p).1, .items (t.eraseWhere p).2)
  | .modify h f _ => (t.modify h f, .item (t.get? h))
  | .clear => (empty, .done)

def run (t : Index α buckets) (actions : List (Action α)) : Index α buckets × List (Answer α) :=
  runEach act t actions

end Index

namespace Shelves

open Index (bucketFor)

/-- What an operation does to the shelves, with its answer. -/
inductive Step : Shelves α buckets → Index.Action α → Index.Answer α → Shelves α buckets → Prop
  | insert {s : Shelves α buckets} {x : α} {h : Handle} (fresh : ∀ e ∈ s.entries, e.1 ≠ h) :
    Step s (.insert x) (.handle h) (s.append (bucketFor buckets (HasKey.key x)) (h, x))
  | erase {s : Shelves α buckets} {h : Handle} {x? : Option α}
    (stands : ∀ x, x? = some x ↔ (h, x) ∈ s.entries) :
    Step s (.erase h) (.item x?) (s.keep (·.1 ≠ h))
  | eraseWhere {s : Shelves α buckets} {p : α → Bool} :
    Step s (.eraseWhere p) (.items ((s.entries.filter fun e => p e.2).map Prod.snd))
      (s.keep fun e => !p e.2)
  | modify {s : Shelves α buckets} {h : Handle} {f : α → α} {x? : Option α}
    {keeps : ∀ x, HasKey.key (f x) = HasKey.key x} (stands : ∀ x, x? = some x ↔ (h, x) ∈ s.entries) :
    Step s (.modify h f keeps) (.item x?) (s.change h f)
  | clear {s : Shelves α buckets} : Step s .clear .done empty

abbrev Run : Shelves α buckets → List (Index.Action α) → List (Index.Answer α) →
    Shelves α buckets → Prop :=
  Steps Step

end Shelves

namespace Index

/-! ### The index tracks the shelves -/

/-- The index holds the lists, and each list is in the order of insertion. -/
structure Tracks (t : Index α buckets) (s : Shelves α buckets) : Prop where
  holds : t.Holds s.lists
  ordered : ∀ b, s.lists b = s.order.filter fun e => bucketFor buckets (HasKey.key e.2) = b

namespace Tracks

variable {t : Index α buckets} {s : Shelves α buckets}

theorem empty : (Index.empty : Index α buckets).Tracks .empty :=
  ⟨holds_empty, fun _ => rfl⟩

theorem toList_eq (h : t.Tracks s) : t.toList = s.entries := h.holds.toList_eq

theorem mem_entries (h : t.Tracks s) (k : Handle) (x : α) : (k, x) ∈ s.entries ↔ t.get? k = some x := by
  rw [← h.toList_eq, mem_toList h.holds.wellFormed]

theorem insert (h : t.Tracks s) (x : α) :
    (t.insert x).1.Tracks (s.append (bucketFor buckets (HasKey.key x)) ((t.insert x).2, x)) where
  holds := holds_insert h.holds x
  ordered b := by
    have hb := h.ordered b
    by_cases hx : bucketFor buckets (HasKey.key x) = b
    · subst hx
      simp [Shelves.append, ← hb]
    · simp [Shelves.append, Function.update_of_ne (Ne.symm hx), hx, hb]

/-- What is kept of the lists is kept of the order. -/
theorem ordered_keep (h : t.Tracks s) (p : Handle × α → Bool) (b : Fin buckets) :
    (s.keep p).lists b =
      (s.keep p).order.filter fun e => bucketFor buckets (HasKey.key e.2) = b := by
  simp only [Shelves.keep]
  rw [h.ordered b, List.filter_filter, List.filter_filter]
  exact List.filter_congr fun e _ => Bool.and_comm _ _

theorem erase (h : t.Tracks s) (k : Handle) : (t.erase k).1.Tracks (s.keep (·.1 ≠ k)) :=
  ⟨holds_erase h.holds k, h.ordered_keep _⟩

theorem eraseWhere (h : t.Tracks s) (p : α → Bool) :
    (t.eraseWhere p).1.Tracks (s.keep fun e => !p e.2) :=
  ⟨holds_eraseWhere h.holds p, h.ordered_keep _⟩

theorem modify (h : t.Tracks s) (k : Handle) {f : α → α}
    (keeps : ∀ x, HasKey.key (f x) = HasKey.key x) : (t.modify k f).Tracks (s.change k f) where
  holds := holds_modify h.holds k f fun x _ => keeps x
  ordered b := by
    simp only [Shelves.change]
    rw [h.ordered b, List.filter_map]
    congr 1
    -- An entry is in the bucket that it was in.
    refine List.filter_congr fun e _ => ?_
    by_cases hk : k = e.1
    · simp [hk, keeps]
    · simp [hk]

/-- An operation on the index is one on the shelves, with the same answer. -/
theorem act (h : t.Tracks s) (action : Action α) :
    ∃ s', s.Step action (t.act action).2 s' ∧ (t.act action).1.Tracks s' := by
  have hstands : ∀ k x, t.get? k = some x ↔ (k, x) ∈ s.entries := fun k x =>
    (h.mem_entries k x).symm
  cases action with
  | insert x =>
    have hfresh : ∀ e ∈ s.entries, e.1 ≠ (t.insert x).2 := by
      intro e he hk
      have hx := (h.mem_entries e.1 e.2).1 he
      rw [hk, get?_insert_snd h.holds.wellFormed] at hx
      cases hx
    exact ⟨_, .insert hfresh, h.insert x⟩
  | erase k =>
    refine ⟨_, .erase fun x => ?_, h.erase k⟩
    rw [erase_snd]
    exact hstands k x
  | eraseWhere p =>
    refine ⟨_, ?_, h.eraseWhere p⟩
    have hitems : (t.eraseWhere p).2 = (s.entries.filter fun e => p e.2).map Prod.snd := by
      rw [eraseWhere_snd h.holds.wellFormed, h.toList_eq]
    show s.Step _ (.items (t.eraseWhere p).2) _
    rw [hitems]
    exact .eraseWhere
  | modify k f keeps => exact ⟨_, .modify (hstands k), h.modify k keeps⟩
  | clear => exact ⟨_, .clear, empty⟩

/-- A run of the index is a run of the shelves. -/
theorem run (h : t.Tracks s) (actions : List (Action α)) :
    ∃ s', s.Run actions (t.run actions).2 s' ∧ (t.run actions).1.Tracks s' :=
  Steps.of_tracks (fun _ _ action h => h.act action) h actions

end Tracks

/-! ### What the index shows -/

/-- Every way to look into the index shows the lists on the shelves. -/
structure Shows (t : Index α buckets) (s : Shelves α buckets) : Prop where
  get? : ∀ h x, t.get? h = some x ↔ ∃ b, (h, x) ∈ s.lists b
  contains : ∀ h, t.contains h = true ↔ ∃ b x, (h, x) ∈ s.lists b
  chain : ∀ key, t.chain key = s.lists (bucketFor buckets key)
  first : ∀ key, t.first? key = (s.lists (bucketFor buckets key)).head?.map Prod.fst
  next : ∀ b n e, (s.lists b)[n]? = some e → t.next? e.1 = (s.lists b)[n + 1]?.map Prod.fst
  after : ∀ b n e, (s.lists b)[n]? = some e → t.after e.1 = (s.lists b).drop (n + 1)
  stale : ∀ h, (∀ b x, (h, x) ∉ s.lists b) → t.next? h = none
  /-- So many steps from the head of a chain lead to the entry of that place, and
  to nothing after the last one. -/
  steps : ∀ key n, (fun h? => h?.bind t.next?)^[n] (t.first? key) =
    (s.lists (bucketFor buckets key))[n]?.map Prod.fst
  toList : t.toList = s.entries
  once : (s.entries.map Prod.fst).Nodup
  size : t.size = s.entries.length
  /-- Each list has the entries of its bucket, the one inserted first at its head. -/
  ordered : ∀ b, s.lists b = s.order.filter fun e => bucketFor buckets (HasKey.key e.2) = b
  /-- The item found is the first one inserted that has the key and the property. -/
  find? : ∀ key p, t.find? key p =
    (s.order.find? fun e => HasKey.key e.2 == key && p e.2).map Prod.fst

namespace Tracks

variable {t : Index α buckets} {s : Shelves α buckets}

theorem get?_eq_some_iff (h : t.Tracks s) (k : Handle) (x : α) :
    t.get? k = some x ↔ ∃ b, (k, x) ∈ s.lists b := by
  rw [← h.mem_entries, Shelves.entries, List.mem_flatMap]
  simp

/-- An index shows its own buckets: only the order across them is not in it. -/
theorem own (h : t.Tracks s) : t.Tracks ⟨t.bucket, s.order⟩ := by
  rw [h.holds.bucket_eq]
  exact h

/-- What is in the order is what handles lead to. -/
theorem mem_order (h : t.Tracks s) (k : Handle) (x : α) : (k, x) ∈ s.order ↔ t.get? k = some x := by
  rw [h.get?_eq_some_iff]
  simp only [h.ordered, List.mem_filter, decide_eq_true_eq, exists_and_left, exists_eq', and_true]

/-- The index lists what is in the order. -/
theorem perm_order (h : t.Tracks s) (hn : (s.order.map Prod.fst).Nodup) : t.toList.Perm s.order := by
  have hlisted := nodup_toList h.holds.wellFormed
  refine (List.perm_ext_iff_of_nodup hlisted.of_map hn.of_map).2 fun e => ?_
  rw [h.mem_order e.1 e.2, mem_toList h.holds.wellFormed]

theorem first?_eq (h : t.Tracks s) (key : String) :
    t.first? key = (s.lists (bucketFor buckets key)).head?.map Prod.fst :=
  (h.holds.chain _).first_eq

theorem next?_eq (h : t.Tracks s) {b : Fin buckets} {n : Nat} {e : Handle × α}
    (he : (s.lists b)[n]? = some e) : t.next? e.1 = (s.lists b)[n + 1]?.map Prod.fst := by
  obtain ⟨next, hg, hrest⟩ := (h.holds.chain b).next_of_getElem? he
  have hnext : t.next? e.1 = next := by rw [next?, hg, Option.bind_some]
  rw [hnext, hrest.first_eq, List.head?_drop]

theorem after_eq (h : t.Tracks s) {b : Fin buckets} {n : Nat} {e : Handle × α}
    (he : (s.lists b)[n]? = some e) : t.after e.1 = (s.lists b).drop (n + 1) := by
  obtain ⟨next, hg, hrest⟩ := (h.holds.chain b).next_of_getElem? he
  have hnext : t.next? e.1 = next := by rw [next?, hg, Option.bind_some]
  have hl := h.holds.length_le b
  unfold after
  rw [hnext]
  exact hrest.walk_eq (by rw [List.length_drop]; omega)

/-- Every chain comes to its end. -/
theorem iterate_next? (h : t.Tracks s) (key : String) (n : Nat) :
    (fun h? => h?.bind t.next?)^[n] (t.first? key) =
      (s.lists (bucketFor buckets key))[n]?.map Prod.fst := by
  induction n with
  | zero => rw [Function.iterate_zero, id, h.first?_eq, List.head?_eq_getElem?]
  | succ n ih =>
    rw [Function.iterate_succ_apply', ih]
    cases he : (s.lists (bucketFor buckets key))[n]? with
    | none =>
      have hend := List.getElem?_eq_none_iff.1 he
      rw [List.getElem?_eq_none (by omega)]
      rfl
    | some e => exact h.next?_eq he

theorem find?_eq (h : t.Tracks s) (key : String) (p : α → Bool) :
    t.find? key p = (s.order.find? fun e => HasKey.key e.2 == key && p e.2).map Prod.fst := by
  unfold find? chain
  rw [h.holds.bucket_eq, h.ordered, List.find?_filter]
  congr 2
  -- What has the key is in its bucket.
  funext e
  by_cases hk : HasKey.key e.2 = key
  · simp [hk]
  · simp [hk]

/-- An index that tracks the shelves shows what is on them. -/
theorem shows (h : t.Tracks s) : t.Shows s where
  get? := h.get?_eq_some_iff
  contains k := by
    unfold contains
    rw [Option.isSome_iff_exists, exists_comm]
    exact exists_congr fun x => h.get?_eq_some_iff k x
  chain key := congrFun h.holds.bucket_eq _
  first := h.first?_eq
  next _ _ _ := h.next?_eq
  after _ _ _ := h.after_eq
  stale k hk := by
    have hnone : t.get? k = none := by
      rw [Option.eq_none_iff_forall_ne_some]
      intro x hx
      obtain ⟨b, hm⟩ := (h.get?_eq_some_iff k x).1 hx
      exact hk b x hm
    rw [next?, Option.map_eq_none_iff.1 hnone, Option.bind_none]
  steps := h.iterate_next?
  toList := h.toList_eq
  once := h.toList_eq ▸ nodup_toList h.holds.wellFormed
  size := by rw [size_eq h.holds.wellFormed, items, List.length_map, h.toList_eq]
  ordered := h.ordered
  find? := h.find?_eq

end Tracks

/-- **An index is a family of shelves.** Every run of operations on an empty index is
a run of the shelves with the same answers, and the index shows in the end what is
on them. -/
theorem shows_run (actions : List (Action α)) :
    ∃ s, Shelves.Run .empty actions ((empty : Index α buckets).run actions).2 s ∧
      ((empty : Index α buckets).run actions).1.Shows s := by
  have hempty : (empty : Index α buckets).Tracks .empty := .empty
  obtain ⟨s, hrun, h⟩ := hempty.run actions
  exact ⟨s, hrun, h.shows⟩

/-- A one-element signal at the start of a block. -/
def flag (name : String) : Signal := .ofNames name "exp" "gina" 1 0 1 .boolean

/-- Two signals come, the first goes, and comes again into the cell it left. -/
def comeAndGo : List (Action Signal) :=
  [.insert (flag "a"), .insert (flag "b"), .erase ⟨0, 0⟩, .insert (flag "a")]

/-- With one bucket for all keys, the chain is in the order in which the signals
came last, whatever cells they are in. -/
theorem shows_run_comeAndGo : Spreads 1 ∧ ∃ s : Shelves Signal 1,
    s.lists 0 = [(⟨1, 0⟩, flag "b"), (⟨0, 1⟩, flag "a")] ∧
    Shelves.Run .empty comeAndGo
      [.handle ⟨0, 0⟩, .handle ⟨1, 0⟩, .item (some (flag "a")), .handle ⟨0, 1⟩] s ∧
    ((empty : Index Signal 1).run comeAndGo).1.Shows s := by
  have hanswers : ((empty : Index Signal 1).run comeAndGo).2 =
      [.handle ⟨0, 0⟩, .handle ⟨1, 0⟩, .item (some (flag "a")), .handle ⟨0, 1⟩] := rfl
  have hchain : ((empty : Index Signal 1).run comeAndGo).1.chain "a" =
      [(⟨1, 0⟩, flag "b"), (⟨0, 1⟩, flag "a")] := rfl
  have hruns : ∃ s, Shelves.Run .empty comeAndGo ((empty : Index Signal 1).run comeAndGo).2 s ∧
      ((empty : Index Signal 1).run comeAndGo).1.Shows s := shows_run comeAndGo
  obtain ⟨s, hrun, hs⟩ := hruns
  rw [hanswers] at hrun
  refine ⟨inferInstance, s, ?_, hrun, hs⟩
  rw [← hchain, hs.chain, Subsingleton.elim (bucketFor 1 "a") 0]

end Index
end SignalRegistry
