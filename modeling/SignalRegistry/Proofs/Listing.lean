/-
# The signals of a network in the order of their entries

A network's table keeps its signals bucket by bucket, and a bucket has signals of
different names. A `Listing` has them in one list instead, in the order in which
they were entered: a signal that is new comes last, one that is there is changed
where it stands, and what is removed leaves a gap. Each operation on a network is
a step of the listing with the same answer (`Network.Tracks.act`).

A search by a selector walks along one chain, from a handle to the next match. It
meets the signals of the listing that the selector asks for, in their order and
each once, and then comes to an end (`Network.Tracks.enumerates`), whatever else
is in the chain and whichever cells the signals are in.

Key definitions: `Selector.Matches`, `Network.Visits`, `Network.run`, `Listing`,
`Listing.Step`, `Network.Tracks`, `Network.Enumerates`.
Key theorems: `Network.Tracks.act`, `Network.Tracks.run`, `Network.Tracks.enumerates`,
`Network.enumerates_run`.
-/
import SignalRegistry.Proofs.IndexRuns
import SignalRegistry.Proofs.Network

namespace SignalRegistry

/-! ### What a selector asks for -/

/-- The signal has the name that the selector gives, and the block, the device and
the number as far as the selector specifies them. -/
structure Selector.Matches (ids : Selector) (s : Signal) : Prop where
  named : ids.signal.text ≠ ""
  signal : s.name = ids.signal
  block : ids.block.text ≠ "" → s.block = ids.block
  device : ids.device.text ≠ "" → s.device = ids.device
  number : ids.number ≠ 0 → s.number = ids.number

/-- A signal agrees with a selector exactly if it has every field that is specified. -/
theorem Signal.agrees_iff (s : Signal) (ids : Selector) : s.agrees ids = true ↔
    (ids.block.text ≠ "" → s.block = ids.block) ∧ (ids.device.text ≠ "" → s.device = ids.device) ∧
      (ids.number ≠ 0 → s.number = ids.number) := by
  simp only [agrees, Bool.and_eq_true, Bool.or_eq_true, Name.isEmpty_iff, beq_iff_eq, and_assoc,
    ne_eq, ← or_iff_not_imp_left, eq_comm (b := s.block), eq_comm (b := s.device),
    eq_comm (b := s.number)]

theorem Selector.matches_iff {ids : Selector} (hids : ids.signal.text ≠ "") (s : Signal) :
    ids.Matches s ↔ Network.selects ids s = true := by
  rw [Network.selects, Bool.and_eq_true, beq_iff_eq, s.agrees_iff]
  exact ⟨fun h => ⟨h.signal, h.block, h.device, h.number⟩,
    fun h => ⟨hids, h.1, h.2.1, h.2.2.1, h.2.2.2⟩⟩

instance (ids : Selector) (s : Signal) : Decidable (ids.Matches s) :=
  if hids : ids.signal.text = "" then .isFalse fun h => h.named hids
  else decidable_of_iff' _ (Selector.matches_iff hids s)

namespace Network

/-! ### Runs -/

/-- An operation on a network. Which blocks are alive is asked anew by each that
looks for gone ones. -/
inductive Action where
  | putSignal (s : Signal)
  | eraseSignal (h : Handle)
  | link (block : BlockRef)
  | unlink (h : Handle)
  | lookup (alive : Nat → Bool) (block device : String) (number : UInt32)
  | forget (alive : Nat → Bool) (block : BlockRef)
  | clear

inductive Answer where
  | handle (h : Handle)
  | signal (s? : Option Signal)
  | released (result : Except Error Unit)
  | block (b? : Option BlockRef)
  | removed (count : Removed)
  | done

def act (n : Network) : Action → Network × Answer
  | .putSignal s => ((n.putSignal s).1, .handle (n.putSignal s).2.1)
  | .eraseSignal h => ((n.eraseSignal h).1, .signal (n.eraseSignal h).2)
  | .link block => ((n.link block).1, .handle (n.link block).2)
  | .unlink h => ((n.unlink h).1, .released (n.unlink h).2)
  | .lookup alive block device number =>
    ((n.lookup alive block device number).1, .block (n.lookup alive block device number).2)
  | .forget alive block => ((n.forget alive block).1, .removed (n.forget alive block).2.1)
  | .clear => (n.clear, .done)

def run (n : Network) (actions : List Action) : Network × List Answer := runEach act n actions

/-- The handles that a search meets from one on, looking for the next match after
each, until there is none. -/
inductive Visits (n : Network) (ids : Selector) : Option Handle → List Handle → Prop
  | stop : Visits n ids none []
  | next {h : Handle} {more : List Handle} :
    Visits n ids (n.nextMatch? h ids) more → Visits n ids (some h) (h :: more)

end Network

/-! ### The listing -/

/-- Signals with their handles, the one entered first before all others. -/
abbrev Listing := List (Handle × Signal)

namespace Listing

/-- The signal of an entry lies in the block. -/
def liesIn (block : BlockRef) (e : Handle × Signal) : Bool :=
  e.2.liesIn block.identity.block.text block.identity.device.text block.identity.number

/-- What an operation does to the listing, with its answer. -/
inductive Step : Listing → Network.Action → Network.Answer → Listing → Prop
  | enter {l : Listing} {s : Signal} {h : Handle} (fresh : ∀ e ∈ l, e.1 ≠ h)
    (unknown : ∀ e ∈ l, e.2.identity ≠ s.identity) :
    Step l (.putSignal s) (.handle h) (l ++ [(h, s)])
  | refresh {l : Listing} {s t : Signal} {h : Handle} (stands : (h, t) ∈ l)
    (known : t.identity = s.identity) :
    Step l (.putSignal s) (.handle h) (l.map fun e => if e.1 = h then (h, s) else e)
  | eraseSignal {l : Listing} {h : Handle} {s? : Option Signal}
    (stands : ∀ s, s? = some s ↔ (h, s) ∈ l) :
    Step l (.eraseSignal h) (.signal s?) (l.filter (·.1 ≠ h))
  | forget {l : Listing} {alive : Nat → Bool} {block : BlockRef} {shortcuts : Nat} :
    Step l (.forget alive block) (.removed ⟨(l.filter (liesIn block)).length, shortcuts⟩)
      (l.filter fun e => !liesIn block e)
  | clear {l : Listing} : Step l .clear .done []
  | link {l : Listing} {block : BlockRef} {h : Handle} : Step l (.link block) (.handle h) l
  | unlink {l : Listing} {h : Handle} {result : Except Error Unit} :
    Step l (.unlink h) (.released result) l
  | lookup {l : Listing} {alive : Nat → Bool} {block device : String} {number : UInt32}
    {b? : Option BlockRef} : Step l (.lookup alive block device number) (.block b?) l

abbrev Run : Listing → List Network.Action → List Network.Answer → Listing → Prop := Steps Step

end Listing

namespace Network

/-! ### A network tracks its listing -/

/-- The network is well-formed, and each bucket of its table has the signals of the
listing that belong there, in the order of the listing. -/
structure Tracks (n : Network) (l : Listing) : Prop where
  wellFormed : n.WellFormed
  signals : n.signals.Tracks ⟨n.signals.bucket, l⟩
  handles : (l.map Prod.fst).Nodup

theorem tracks_of_empty {n : Network} (hs : n.signals = .empty) (hc : n.shortcuts = .empty) :
    n.Tracks [] where
  wellFormed := wellFormed_of_empty hs hc
  signals := hs ▸ Index.Tracks.empty.own
  handles := List.nodup_nil

theorem WellFormed.eraseSignal {n : Network} (hn : n.WellFormed) (h : Handle) :
    (n.eraseSignal h).1.WellFormed where
  signals := hn.signals.erase h
  shortcuts := hn.shortcuts
  identity := by
    refine hn.identity.mono fun k y hy => ⟨y, ?_, rfl⟩
    have hget := (Index.get?_erase n.signals h k).symm.trans hy
    by_cases hk : h = k
    · rw [if_pos hk] at hget
      cases hget
    · rwa [if_neg hk] at hget
  blocks := hn.blocks

theorem WellFormed.unlink {n : Network} (hn : n.WellFormed) (h : Handle) :
    (n.unlink h).1.WellFormed where
  signals := hn.signals
  shortcuts := hn.shortcuts.erase h
  identity := hn.identity
  blocks := by
    have hlist : (n.unlink h).1.shortcuts.toList = n.shortcuts.toList.filter (·.1 ≠ h) :=
      (Shortcuts.holds_erase hn.shortcuts h).toList_eq
    refine hn.blocks.sublist (List.Sublist.map _ (List.Sublist.map _ ?_))
    rw [hlist]
    exact List.filter_sublist

/-- Of entries that stand in the table, only that of the handle changes with a
signal of its identity, and it becomes that signal. -/
theorem map_refreshed {n : Network} {k : Handle} {s t : Signal} (ht : n.signals.get? k = some t)
    (hid : t.identity = s.identity) {l : Listing} (hl : ∀ e ∈ l, n.signals.get? e.1 = some e.2) :
    (l.map fun e => (e.1, if k = e.1 then { e.2 with
      address := s.address, count := s.count, columns := s.columns, type := s.type } else e.2)) =
      l.map fun e => if e.1 = k then (k, s) else e := by
  refine List.map_congr_left fun e he => ?_
  by_cases hek : e.1 = k
  · have hstands : e.2 = t := by
      have hget := hl e he
      rw [hek, ht, Option.some_inj] at hget
      exact hget.symm
    rw [if_pos hek, if_pos hek.symm, hek, hstands, Signal.refresh_eq hid]
  · rw [if_neg hek, if_neg (Ne.symm hek)]

namespace Tracks

variable {n : Network} {l : Listing}

theorem mem_iff (h : n.Tracks l) (k : Handle) (s : Signal) :
    (k, s) ∈ l ↔ n.signals.get? k = some s := h.signals.mem_order k s

/-- A change of the shortcuts alone leaves the listing. -/
theorem of_signals_eq {m : Network} (h : n.Tracks l) (hm : m.WellFormed)
    (hs : m.signals = n.signals) : m.Tracks l :=
  ⟨hm, hs ▸ h.signals, h.handles⟩

/-- The one signal of a handle is changed where it stands. -/
theorem refresh (h : n.Tracks l) {k : Handle} {s t : Signal} (hk : n.sameSignal? s = some k)
    (ht : n.signals.get? k = some t) (hid : t.identity = s.identity) :
    (n.putSignal s).1.Tracks (l.map fun e => if e.1 = k then (k, s) else e) := by
  have hput : (n.putSignal s).1.signals = n.signals.modify k fun t => { t with
      address := s.address, count := s.count, columns := s.columns, type := s.type } := by
    unfold putSignal
    rw [hk]
  have hkey : ∀ t : Signal, HasKey.key { t with
      address := s.address, count := s.count, columns := s.columns, type := s.type } =
        HasKey.key t := fun _ => rfl
  have htable := (h.signals.modify k hkey).own
  have hlist := map_refreshed ht hid fun e he => (h.mem_iff e.1 e.2).1 he
  refine ⟨h.wellFormed.putSignal s, ?_, ?_⟩
  · rw [hput, ← hlist]
    exact htable
  · rw [← hlist, List.map_map]
    exact h.handles

/-- A signal that is added is entered in the listing or changed in it. -/
theorem putSignal (h : n.Tracks l) (s : Signal) :
    ∃ l', Listing.Step l (.putSignal s) (.handle (n.putSignal s).2.1) l' ∧
      (n.putSignal s).1.Tracks l' := by
  cases hk : n.sameSignal? s with
  | some k =>
    obtain ⟨t, ht, hid⟩ := sameSignal?_eq_some h.wellFormed hk
    have hhandle : (n.putSignal s).2.1 = k := by
      unfold Network.putSignal
      rw [hk]
    rw [hhandle]
    exact ⟨_, .refresh ((h.mem_iff k t).2 ht) hid, h.refresh hk ht hid⟩
  | none =>
    have hput : (n.putSignal s).1 = { n with signals := (n.signals.insert s).1 } ∧
        (n.putSignal s).2.1 = (n.signals.insert s).2 := by
      unfold Network.putSignal
      rw [hk]
      exact ⟨rfl, rfl⟩
    have hfresh : ∀ e ∈ l, e.1 ≠ (n.signals.insert s).2 := by
      intro e he hek
      have hget := (h.mem_iff e.1 e.2).1 he
      rw [hek, Index.get?_insert_snd h.wellFormed.signals] at hget
      cases hget
    have hunknown : ∀ e ∈ l, e.2.identity ≠ s.identity := fun e he =>
      sameSignal?_eq_none h.wellFormed hk ((h.mem_iff e.1 e.2).1 he)
    have hwell := h.wellFormed.putSignal s
    rw [hput.2]
    refine ⟨_, .enter hfresh hunknown, hwell, ?_, nodup_map_append_singleton h.handles hfresh⟩
    rw [hput.1]
    exact (h.signals.insert s).own

theorem eraseSignal (h : n.Tracks l) (k : Handle) : (n.eraseSignal k).1.Tracks (l.filter (·.1 ≠ k)) :=
  ⟨h.wellFormed.eraseSignal k, (h.signals.erase k).own, h.handles.sublist (List.filter_sublist.map _)⟩

theorem forget (h : n.Tracks l) (alive : Nat → Bool) (block : BlockRef) :
    (n.forget alive block).1.Tracks (l.filter fun e => !Listing.liesIn block e) where
  wellFormed := h.wellFormed.forget
  signals := (h.signals.eraseWhere fun s =>
    s.liesIn block.identity.block.text block.identity.device.text block.identity.number).own
  handles := h.handles.sublist (List.filter_sublist.map _)

/-- As many signals go with a block as lie in it. -/
theorem forget_count (h : n.Tracks l) (alive : Nat → Bool) (block : BlockRef) :
    (n.forget alive block).2.1.signals = (l.filter (Listing.liesIn block)).length := by
  have hgone := Index.eraseWhere_snd h.wellFormed.signals fun s =>
    s.liesIn block.identity.block.text block.identity.device.text block.identity.number
  refine (congrArg List.length hgone).trans ?_
  rw [List.length_map]
  exact ((h.signals.perm_order h.handles).filter _).length_eq

/-- An operation on the network is one on its listing, with the same answer. -/
theorem act (h : n.Tracks l) (a : Action) :
    ∃ l', Listing.Step l a (n.act a).2 l' ∧ (n.act a).1.Tracks l' := by
  cases a with
  | putSignal s => exact h.putSignal s
  | eraseSignal k =>
    refine ⟨_, .eraseSignal fun s => ?_, h.eraseSignal k⟩
    rw [h.mem_iff]
    exact iff_of_eq (congrArg (· = some s) (Index.erase_snd n.signals k))
  | link block => exact ⟨l, .link, h.of_signals_eq (h.wellFormed.link block) (n.link_signals block)⟩
  | unlink k => exact ⟨l, .unlink, h.of_signals_eq (h.wellFormed.unlink k) rfl⟩
  | lookup alive block device number =>
    exact ⟨l, .lookup, h.of_signals_eq (h.wellFormed.lookup alive block device number) rfl⟩
  | forget alive block =>
    have hcount := h.forget_count alive block
    refine ⟨_, ?_, h.forget alive block⟩
    show Listing.Step l _ (.removed ⟨(n.forget alive block).2.1.signals, _⟩) _
    rw [hcount]
    exact .forget
  | clear => exact ⟨[], .clear, tracks_of_empty rfl rfl⟩

theorem run (h : n.Tracks l) (actions : List Action) :
    ∃ l', Listing.Run l actions (n.run actions).2 l' ∧ (n.run actions).1.Tracks l' :=
  Steps.of_tracks (fun _ _ a h => h.act a) h actions

end Tracks

/-! ### What a search shows -/

/-- Every way to search by a selector shows the signals of the listing that it
matches. -/
structure Enumerates (n : Network) (l : Listing) (ids : Selector) : Prop where
  /-- In the order of the listing, and therefore each once. -/
  matching : n.matching ids = l.filter fun e => ids.Matches e.2
  /-- Steps from the first match on lead through all of them to the end. -/
  visits : n.Visits ids (n.firstMatch? ids) ((n.matching ids).map Prod.fst)
  none_iff : n.firstMatch? ids = none ↔ ∀ h s, n.signals.get? h = some s → ¬ ids.Matches s
  unnamed : ids.signal.text = "" → n.matching ids = []

namespace Tracks

variable {n : Network} {l : Listing} {ids : Selector}

/-- The chain of a name has all signals of that name, in their order. -/
theorem matching_eq (h : n.Tracks l) (ids : Selector) :
    n.matching ids = l.filter fun e => ids.Matches e.2 := by
  unfold matching
  by_cases hids : ids.signal.text = ""
  · rw [if_pos ((Name.isEmpty_iff _).2 hids)]
    exact (List.filter_eq_nil_iff.2 fun e _ hm => (of_decide_eq_true hm).named hids).symm
  · rw [if_neg fun he => hids ((Name.isEmpty_iff _).1 he)]
    have hchain : n.signals.chain ids.signal.text = l.filter fun e =>
        Index.bucketFor signalBuckets (HasKey.key e.2) =
          Index.bucketFor signalBuckets ids.signal.text :=
      h.signals.ordered _
    rw [hchain, List.filter_filter]
    refine List.filter_congr fun e _ => ?_
    rw [Bool.eq_iff_iff, Bool.and_eq_true, decide_eq_true_eq, decide_eq_true_eq,
      Selector.matches_iff hids]
    -- What the selector selects has its name, and so the bucket of the name.
    refine and_iff_left_of_imp fun hs => ?_
    exact congrArg (fun name : SignalName => Index.bucketFor signalBuckets name.text)
      (name_of_selects hs)

/-- From any place in a chain on, a search meets the matches that are left. By
induction on the rest of the chain. -/
theorem visits_rest (h : n.Tracks l) (b : Fin signalBuckets) {before rest : List (Handle × Signal)}
    (hb : n.signals.bucket b = before ++ rest) :
    n.Visits ids ((rest.find? fun e => selects ids e.2).map Prod.fst)
      ((rest.filter fun e => selects ids e.2).map Prod.fst) := by
  induction rest generalizing before with
  | nil => exact .stop
  | cons e rest ih =>
    have hrest : n.Visits ids ((rest.find? fun e => selects ids e.2).map Prod.fst)
        ((rest.filter fun e => selects ids e.2).map Prod.fst) := by
      refine @ih (before ++ [e]) ?_
      rw [hb, List.append_assoc, List.singleton_append]
    cases he : selects ids e.2 with
    | true =>
      have hplace : (n.signals.bucket b)[before.length]? = some e := by
        rw [hb, List.getElem?_append_right (Nat.le_refl _), Nat.sub_self, List.getElem?_cons_zero]
      have hafter : n.signals.after e.1 = rest := by
        refine (h.signals.after_eq hplace).trans ?_
        show (n.signals.bucket b).drop (before.length + 1) = rest
        rw [hb, ← List.drop_drop, List.drop_left, List.drop_one, List.tail_cons]
      simp only [List.find?_cons, List.filter_cons, he, if_true, Option.map_some, List.map_cons]
      refine .next ?_
      unfold nextMatch?
      rw [hafter]
      exact hrest
    | false =>
      simp only [List.find?_cons, List.filter_cons, he, Bool.false_eq_true, if_false]
      exact hrest

theorem visits (h : n.Tracks l) (ids : Selector) :
    n.Visits ids (n.firstMatch? ids) ((n.matching ids).map Prod.fst) := by
  unfold firstMatch? matching
  split
  · exact .stop
  · rw [List.head?_filter]
    exact h.visits_rest _ (List.nil_append _).symm

theorem firstMatch?_eq_none_iff (h : n.Tracks l) (ids : Selector) :
    n.firstMatch? ids = none ↔ ∀ k s, n.signals.get? k = some s → ¬ ids.Matches s := by
  unfold firstMatch?
  rw [Option.map_eq_none_iff, List.head?_eq_none_iff, h.matching_eq, List.filter_eq_nil_iff]
  simp only [decide_eq_true_eq, Prod.forall, h.mem_iff]

theorem enumerates (h : n.Tracks l) (ids : Selector) : n.Enumerates l ids where
  matching := h.matching_eq ids
  visits := h.visits ids
  none_iff := h.firstMatch?_eq_none_iff ids
  unnamed hids := if_pos ((Name.isEmpty_iff _).2 hids)

end Tracks

/-- **A search shows every match once.** After every run of operations on a new
network, all searches show the signals that handles lead to, in the order in which
they were entered. -/
theorem enumerates_run {name : String} {n : Network} (hn : ofName name = .ok n)
    (actions : List Action) :
    ∃ l, Listing.Run [] actions (n.run actions).2 l ∧
      (∀ h s, (h, s) ∈ l ↔ (n.run actions).1.signals.get? h = some s) ∧
      (l.map Prod.fst).Nodup ∧ ∀ ids, (n.run actions).1.Enumerates l ids := by
  have hempty := (ofName_eq_ok hn).1
  have hstart : n.Tracks [] :=
    tracks_of_empty (congrArg Network.signals hempty) (congrArg Network.shortcuts hempty)
  obtain ⟨l, hrun, h⟩ := hstart.run actions
  exact ⟨l, hrun, h.mem_iff, h.handles, h.enumerates⟩

/-- A lamp of a device of this number. -/
def lamp (block : String) (number address : UInt32) : Signal :=
  .ofNames "led" block "gina" number address 1 .boolean

/-- Three lamps come, the first is changed, and the second goes and comes again. -/
def lamps : List Action :=
  [.putSignal (lamp "imp" 1 0), .putSignal (lamp "exp" 1 0), .putSignal (lamp "exp" 2 0),
    .putSignal (lamp "imp" 1 4), .eraseSignal ⟨1, 0⟩, .putSignal (lamp "exp" 1 4)]

set_option maxRecDepth 10000 in
/-- The lamp that was changed is still the first, and the one that came again is the
last, in the cell that it had before. -/
theorem enumerates_run_lamps : ofName "n" = .ok { name := .cut 24 "n" } ∧ ∃ l,
    Listing.Run [] lamps (({ name := .cut 24 "n" } : Network).run lamps).2 l ∧
      (l.filter fun e => Selector.Matches { signal := .cut 32 "led" } e.2) =
        [(⟨0, 0⟩, lamp "imp" 1 4), (⟨2, 0⟩, lamp "exp" 2 0), (⟨1, 1⟩, lamp "exp" 1 4)] ∧
      (({ name := .cut 24 "n" } : Network).run lamps).1.Visits
        { signal := .cut 32 "led", block := .cut 16 "exp" } (some ⟨2, 0⟩)
        [⟨2, 0⟩, ⟨1, 1⟩] := by
  have hname : ofName "n" = .ok { name := .cut 24 "n" } := rfl
  have hall : (({ name := .cut 24 "n" } : Network).run lamps).1.matching
      { signal := .cut 32 "led" } =
        [(⟨0, 0⟩, lamp "imp" 1 4), (⟨2, 0⟩, lamp "exp" 2 0), (⟨1, 1⟩, lamp "exp" 1 4)] := rfl
  have hsome : (({ name := .cut 24 "n" } : Network).run lamps).1.matching
      { signal := .cut 32 "led", block := .cut 16 "exp" } =
        [(⟨2, 0⟩, lamp "exp" 2 0), (⟨1, 1⟩, lamp "exp" 1 4)] := rfl
  obtain ⟨l, hrun, -, -, hshows⟩ := enumerates_run hname lamps
  refine ⟨hname, l, hrun, (hshows _).matching.symm.trans hall, ?_⟩
  have hvisits := (hshows { signal := .cut 32 "led", block := .cut 16 "exp" }).visits
  unfold firstMatch? at hvisits
  rw [hsome] at hvisits
  exact hvisits

end Network
end SignalRegistry
