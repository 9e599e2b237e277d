/-
# Networks are announced once

The listener hears of a network when its first device is registered and when it
ends, and of nothing in between. An operation on the registry announces the
network it changes exactly if it makes it active or ends its being active
(`Registry.perform_spec`), and so the two announcements of a name alternate
along every run, the last of them telling whether the network is active now
(`Site.announced_performAll`).

Key definitions: `Registry.Command`, `Registry.perform`, `Registry.Transition`,
`announcements`, `Site.performAll`.
Key theorems: `Registry.perform_spec`, `Registry.Accords.performAll`,
`Site.announced_performAll`.
-/
import SignalRegistry.Proofs.Registry
import SignalRegistry.Site

namespace SignalRegistry

open Registry (Notice greeting farewell deviceNotice)

/-- An operation on the networks of a registry. Which blocks are alive is told
anew with each operation that looks. -/
inductive Registry.Command where
  | ensureNetwork (name : String)
  | registerDevice (alive : Nat → Bool) (info : BlockRef) (content : Octets)
      (sizeOf : String → Option Nat)
  | linkBlock (block : BlockRef)
  | forget (alive : Nat → Bool) (block : BlockRef)
  | eraseNetwork (h : Handle)

namespace Registry

/-- The registry after an operation, and what this tells the outside. -/
def perform (r : Registry) : Command → Registry × Journal
  | .ensureNetwork name => ((r.ensureNetwork name).1, (r.ensureNetwork name).2.2)
  | .registerDevice alive info content sizeOf =>
    ((r.registerDevice alive info content sizeOf).1, (r.registerDevice alive info content sizeOf).2.2)
  | .linkBlock block => ((r.linkBlock block).1, [])
  | .forget alive block => r.forget alive block
  | .eraseNetwork h => ((r.eraseNetwork h).1, (r.eraseNetwork h).2.2)

/-- The network as it is when the operation disconnects it: a deleted block is
forgotten by then. -/
def Command.parting (c : Command) (n : Network) : Network :=
  match c with
  | .forget alive block => (n.forget alive block).1
  | _ => n

/-- The registry has an active network of the name. -/
def active (r : Registry) (name : String) : Bool :=
  (r.named? name).any fun n => decide (n.phase = .active)

end Registry

/-- The kinds of event that announce a network. -/
def Event.Kind.announces : Event.Kind → Bool
  | .newNetwork | .networkDisconnected => true
  | _ => false

/-- The notices that announce the network of a name. -/
def announcements (name : String) (notices : List Notice) : List Notice :=
  notices.filter fun notice => notice.1.kind.announces && notice.1.network.text == name

/-- The kinds of the announcements of a name. -/
def announced (name : String) (notices : List Notice) : List Event.Kind :=
  (announcements name notices).map fun notice => notice.1.kind

@[simp] theorem announcements_append (name : String) (a b : List Notice) :
    announcements name (a ++ b) = announcements name a ++ announcements name b := by
  simp [announcements]

@[simp] theorem announced_append (name : String) (a b : List Notice) :
    announced name (a ++ b) = announced name a ++ announced name b := by
  simp [announced]

@[simp] theorem announcements_nil (name : String) : announcements name [] = [] := rfl

@[simp] theorem announcements_greeting (name : String) (n : Network) :
    announcements name [greeting n] = if n.name.text = name then [greeting n] else [] := by
  simp [announcements, greeting, Event.Kind.announces, List.filter_singleton]

@[simp] theorem announcements_farewell (name : String) (n : Network) :
    announcements name [farewell n] = if n.name.text = name then [farewell n] else [] := by
  simp [announcements, farewell, Event.Kind.announces, List.filter_singleton]

theorem announcements_deviceNotice (name : String) {kind : Event.Kind}
    (hk : kind.announces = false) (i : BlockIdentity) (n : Network) :
    announcements name [deviceNotice kind i n] = [] := by
  simp [announcements, deviceNotice, Event.ofBlock, Event.ofNames, hk]

/-- All notices are about the network of the name. -/
def Concern (name : String) (notices : List Notice) : Prop :=
  ∀ notice ∈ notices, notice.1.network.text = name

namespace Concern

variable {name : String} {a b : List Notice}

theorem nil : Concern name [] := fun _ hmem => by cases hmem

theorem singleton {notice : Notice} (hn : notice.1.network.text = name) : Concern name [notice] := by
  intro other hmem
  rw [List.mem_singleton.1 hmem]
  exact hn

theorem append (ha : Concern name a) (hb : Concern name b) : Concern name (a ++ b) := by
  intro notice hmem
  rcases List.mem_append.1 hmem with hmem | hmem
  · exact ha notice hmem
  · exact hb notice hmem

theorem ite {p : Prop} [Decidable p] (ha : Concern name a) (hb : Concern name b) :
    Concern name (if p then a else b) := by
  by_cases hp : p
  · rw [if_pos hp]
    exact ha
  · rw [if_neg hp]
    exact hb

/-- Notices of one name announce no other. -/
theorem announcements_eq_nil (ha : Concern name a) {other : String} (hne : other ≠ name) :
    announcements other a = [] := by
  refine List.filter_eq_nil_iff.2 fun notice hmem => ?_
  have hname := ha notice hmem
  simp [hname, Ne.symm hne]

end Concern

/-! ### One operation -/

namespace Registry

variable {r r' : Registry} {h : Handle} {n : Network} {name : String}

/-- What an operation does to one name, and what it announces of it: nothing if
the network is active as it was before, or that it came or went. -/
inductive Transition (r r' : Registry) (c : Command) (name : String) : List Notice → Prop where
  | quiet (h : r'.active name = r.active name) : Transition r r' c name []
  | comes (n : Network) (before : r.active name = false) (after : r'.named? name = some n)
      (phase : n.phase = .active) : Transition r r' c name [greeting n]
  | goes (n : Network) (before : r.named? name = some n) (phase : n.phase = .active)
      (after : r'.active name = false) : Transition r r' c name [farewell (c.parting n)]

theorem active_of_named? (hn : r.named? name = some n) :
    r.active name = decide (n.phase = .active) := by
  unfold active
  rw [hn, Option.any_some]

theorem active_of_none (hn : r.named? name = none) : r.active name = false := by
  unfold active
  rw [hn, Option.any_none]

/-- Names other than that of the network that was changed are quiet. -/
theorem Updates.active_of_ne {changed : String} {n? : Option Network}
    (hu : r.Updates r' changed n?) (hne : name ≠ changed) : r'.active name = r.active name := by
  unfold active
  rw [hu.named, if_neg hne]

/-- An operation that changes and notifies one name is quiet for the others. -/
theorem Updates.transition {c : Command} {changed : String} {n? : Option Network}
    {notices : List Notice} (hu : r.Updates r' changed n?) (hc : Concern changed notices)
    (hself : Transition r r' c changed (announcements changed notices)) (name : String) :
    Transition r r' c name (announcements name notices) := by
  by_cases hname : name = changed
  · subst hname
    exact hself
  · rw [hc.announcements_eq_nil hname]
    exact .quiet (hu.active_of_ne hname)

theorem name_of_named? (hr : r.WellFormed) (hn : r.named? name = some n) : n.name.text = name := by
  obtain ⟨h, -, hkey⟩ := (named?_eq_some_iff hr).1 hn
  exact hkey

theorem provided_phase (hp : r.provided name = .ok n) :
    r.active name = decide (n.phase = .active) := by
  unfold provided at hp
  split at hp
  · rename_i m hm
    obtain rfl := Except.ok.inj hp
    exact active_of_named? hm
  · rename_i hm
    rw [active_of_none hm, (Network.ofName_eq_ok hp).1]
    rfl

theorem perform_ensureNetwork (hr : r.WellFormed) (created : String) :
    (r.perform (.ensureNetwork created)).1.WellFormed ∧
      Transition r (r.perform (.ensureNetwork created)).1 (.ensureNetwork created) name
        (announcements name (r.perform (.ensureNetwork created)).2.notices) := by
  simp only [perform]
  cases hp : r.provided created with
  | error e =>
    rw [ensureNetwork_error hr hp]
    exact ⟨hr, .quiet rfl⟩
  | ok n =>
    obtain ⟨r', h, j, he, hj, -, hu⟩ := ensureNetwork_ok hr hp
    simp only [he, hj]
    refine ⟨hu.wellFormed, hu.transition .nil (.quiet ?_) name⟩
    rw [provided_phase hp]
    exact active_of_named? (by rw [hu.named, if_pos rfl])

theorem perform_registerDevice (hr : r.WellFormed) (alive : Nat → Bool) (info : BlockRef)
    (content : Octets) (sizeOf : String → Option Nat) :
    (r.perform (.registerDevice alive info content sizeOf)).1.WellFormed ∧
      Transition r (r.perform (.registerDevice alive info content sizeOf)).1
        (.registerDevice alive info content sizeOf) name
        (announcements name (r.perform (.registerDevice alive info content sizeOf)).2.notices) := by
  simp only [perform]
  rcases registerDevice_spec hr alive info content sizeOf with
    ⟨why, j, -, he, hj⟩ | ⟨r', layouts, j, n, m, he, -, hp, hm, hu, hj⟩
  · simp only [he, hj]
    exact ⟨hr, .quiet rfl⟩
  · simp only [he, hj]
    refine ⟨hu.wellFormed, ?_⟩
    have hmname : m.name.text = info.identity.network.text := by
      rw [hm, Network.register_name, (provided_eq_ok hr hp).1]
    have hphase : m.phase = .active := by rw [hm, Network.register_phase]
    have hnamed : r'.named? info.identity.network.text = some m := by rw [hu.named, if_pos rfl]
    have hbefore := provided_phase hp
    have hdevice := congrArg Name.text (network_deviceNotice hmname .newDevice)
    refine hu.transition (.append (.ite .nil (.singleton hmname)) (.singleton hdevice)) ?_ name
    rw [announcements_append, announcements_deviceNotice _ rfl, List.append_nil]
    by_cases ha : n.phase = .active
    · rw [if_pos ha]
      apply Transition.quiet
      rw [hbefore, active_of_named? hnamed, hphase, ha]
    · rw [if_neg ha, announcements_greeting, if_pos hmname]
      exact .comes m (by rw [hbefore, decide_eq_false ha]) hnamed hphase

theorem perform_linkBlock (hr : r.WellFormed) (block : BlockRef) :
    (r.perform (.linkBlock block)).1.WellFormed ∧
      Transition r (r.perform (.linkBlock block)).1 (.linkBlock block) name
        (announcements name (r.perform (.linkBlock block)).2.notices) := by
  have hu := linkBlock_spec hr block
  refine ⟨hu.wellFormed, hu.transition .nil (.quiet ?_) name⟩
  simp only [active, hu.named, if_true, Option.any_map, Network.link_phase]

/-- What is left of a network without a block is not active. -/
theorem any_leftOver (n : Network) :
    ((r.leftOver n).any fun m => decide (m.phase = .active)) = false := by
  unfold leftOver
  split <;> rfl

theorem perform_forget (hr : r.WellFormed) (alive : Nat → Bool) (block : BlockRef) :
    (r.perform (.forget alive block)).1.WellFormed ∧
      Transition r (r.perform (.forget alive block)).1 (.forget alive block) name
        (announcements name (r.perform (.forget alive block)).2.notices) := by
  simp only [perform]
  cases hn : r.named? block.identity.network.text with
  | none =>
    rw [forget_none hr alive hn]
    exact ⟨hr, .quiet rfl⟩
  | some n =>
    obtain ⟨hu, hj⟩ := forget_spec hr alive block hn
    have hdevice : announcements block.identity.network.text (if block.identity.holdsTable then
        [deviceNotice .deviceDisconnected block.identity n] else []) = [] := by
      split
      · exact announcements_deviceNotice _ rfl _ _
      · rfl
    have hname := name_of_named? hr hn
    have hafter : (r.forget alive block).1.active block.identity.network.text =
        (r.afterForget alive block n).any fun m => decide (m.phase = .active) := by
      unfold active
      rw [hu.named, if_pos rfl]
    have hbefore := active_of_named? hn
    have hgoing := congrArg Name.text (network_deviceNotice hname .deviceDisconnected)
    rw [hj]
    refine ⟨hu.wellFormed, hu.transition
      (.append (.ite (.singleton hgoing) .nil) (.ite (.singleton hname) .nil)) ?_ name⟩
    rw [announcements_append, hdevice, List.nil_append]
    cases he : (n.forget alive block).1.shortcuts.isEmpty with
    | false =>
      have hkept : r.afterForget alive block n = some (n.forget alive block).1 := by
        simp only [afterForget, he, Bool.false_eq_true, if_false]
      rw [if_neg (by simp)]
      apply Transition.quiet
      rw [hafter, hbefore, hkept, Option.any_some]
      rfl
    | true =>
      have hgone : (r.forget alive block).1.active block.identity.network.text = false := by
        rw [hafter]
        simp only [afterForget, he, if_true, any_leftOver]
      by_cases ha : n.phase = .active
      · rw [if_pos ⟨ha, rfl⟩, announcements_farewell, Network.forget_name, if_pos hname]
        exact .goes n hn ha hgone
      · rw [if_neg fun hp => ha hp.1]
        apply Transition.quiet
        rw [hgone, hbefore, decide_eq_false ha]

theorem perform_eraseNetwork (hr : r.WellFormed) (h : Handle) :
    (r.perform (.eraseNetwork h)).1.WellFormed ∧
      Transition r (r.perform (.eraseNetwork h)).1 (.eraseNetwork h) name
        (announcements name (r.perform (.eraseNetwork h)).2.notices) := by
  simp only [perform]
  cases hg : r.networks.get? h with
  | none =>
    rw [eraseNetwork_none hg]
    exact ⟨hr, .quiet rfl⟩
  | some n =>
    obtain ⟨hu, hj⟩ := eraseNetwork_spec hr hg
    have hn : r.named? n.name.text = some n := (named?_eq_some_iff hr).2 ⟨h, hg, rfl⟩
    have hgone : (r.eraseNetwork h).1.active n.name.text = false :=
      active_of_none (by rw [hu.named, if_pos rfl])
    rw [hj]
    refine ⟨hu.wellFormed, hu.transition (.ite (.singleton rfl) .nil) ?_ name⟩
    by_cases ha : n.phase = .active
    · rw [if_pos ha, announcements_farewell, if_pos rfl]
      exact .goes n hn ha hgone
    · rw [if_neg ha]
      apply Transition.quiet
      rw [hgone, active_of_named? hn, decide_eq_false ha]

theorem Command.parting_phase (c : Command) (n : Network) : (c.parting n).phase = n.phase := by
  cases c <;> rfl

/-- An announcement comes with the network as it is after it came, or was
before it went. -/
theorem Transition.of_mem {c : Command} {notices : List Notice}
    (ht : Transition r r' c name notices) {e : Event} {n? : Option Network}
    (hm : (e, n?) ∈ notices) : ∃ n, n? = some n ∧ n.name = e.network ∧ n.phase = .active ∧
      (e.kind = .newNetwork → r'.named? name = some n) ∧
      (e.kind = .networkDisconnected → (r.named? name).map c.parting = some n) := by
  cases ht with
  | quiet h => cases hm
  | comes n before after phase =>
    cases List.mem_singleton.1 hm
    exact ⟨n, rfl, rfl, phase, fun _ => after, fun hk => by cases hk⟩
  | goes n before phase after =>
    cases List.mem_singleton.1 hm
    refine ⟨c.parting n, rfl, rfl, ?_, fun hk => (by cases hk), fun _ => ?_⟩
    · rw [c.parting_phase, phase]
    · rw [before, Option.map_some]

/-- Every operation announces of a name what it does to it. -/
theorem perform_spec (hr : r.WellFormed) (c : Command) (name : String) :
    (r.perform c).1.WellFormed ∧
      Transition r (r.perform c).1 c name (announcements name (r.perform c).2.notices) := by
  cases c with
  | ensureNetwork created => exact perform_ensureNetwork hr created
  | registerDevice alive info content sizeOf =>
    exact perform_registerDevice hr alive info content sizeOf
  | linkBlock block => exact perform_linkBlock hr block
  | forget alive block => exact perform_forget hr alive block
  | eraseNetwork h => exact perform_eraseNetwork hr h

/-! ### Sequences of operations -/

/-- The registry after a sequence of operations, and all that was notified. -/
def performAll (r : Registry) : List Command → Registry × List Notice
  | [] => (r, [])
  | c :: cs => (((r.perform c).1.performAll cs).1,
      (r.perform c).2.notices ++ ((r.perform c).1.performAll cs).2)

/-- The kinds alternate, the first being that of a new network. -/
def Alternate (kinds : List Event.Kind) : Prop :=
  ∀ i kind, kinds[i]? = some kind →
    kind = if i % 2 = 0 then .newNetwork else .networkDisconnected

/-- The announcements of a name so far alternate, and their number is odd as
long as the network is active. -/
structure Accords (r : Registry) (name : String) (kinds : List Event.Kind) : Prop where
  alternate : Alternate kinds
  parity : r.active name = true ↔ kinds.length % 2 = 1

theorem Alternate.append_singleton {kinds : List Event.Kind} (h : Alternate kinds)
    {kind : Event.Kind}
    (hk : kind = if kinds.length % 2 = 0 then .newNetwork else .networkDisconnected) :
    Alternate (kinds ++ [kind]) := by
  intro i kind' hi
  rw [List.getElem?_append] at hi
  split at hi
  · exact h i kind' hi
  · have hlen := (List.getElem?_eq_some_iff.1 hi).1
    obtain rfl : i = kinds.length := by rw [List.length_singleton] at hlen; omega
    rw [Nat.sub_self, List.getElem?_cons_zero, Option.some_inj] at hi
    exact hi ▸ hk

/-- What one operation announces fits what was announced before. -/
theorem Accords.step {c : Command} {kinds : List Event.Kind} {notices : List Notice}
    (ha : r.Accords name kinds) (ht : Transition r r' c name notices) :
    r'.Accords name (kinds ++ notices.map fun notice => notice.1.kind) := by
  cases ht with
  | quiet h =>
    rw [List.map_nil, List.append_nil]
    exact ⟨ha.alternate, by rw [h]; exact ha.parity⟩
  | comes n before after phase =>
    have heven : kinds.length % 2 = 0 := by
      have := mt ha.parity.2 (by simp [before])
      omega
    refine ⟨ha.alternate.append_singleton (by rw [if_pos heven]; rfl), ?_⟩
    rw [active_of_named? after, phase, List.length_append, List.length_map, List.length_singleton]
    exact iff_of_true rfl (by omega)
  | goes n before phase after =>
    have hodd : kinds.length % 2 = 1 := ha.parity.1 (by simp [active_of_named? before, phase])
    refine ⟨ha.alternate.append_singleton (by rw [if_neg (by omega)]; rfl), ?_⟩
    rw [after, List.length_append, List.length_map, List.length_singleton]
    exact iff_of_false Bool.false_ne_true (by omega)

theorem wellFormed_performAll (hr : r.WellFormed) (cs : List Command) :
    (r.performAll cs).1.WellFormed := by
  induction cs generalizing r with
  | nil => exact hr
  | cons c cs ih => exact ih (perform_spec hr c "").1

/-- By induction on the sequence, with what was announced before it. -/
theorem Accords.performAll {kinds : List Event.Kind} (hr : r.WellFormed)
    (ha : r.Accords name kinds) (cs : List Command) :
    (r.performAll cs).1.Accords name (kinds ++ announced name (r.performAll cs).2) := by
  induction cs generalizing r kinds with
  | nil => simpa [Registry.performAll, announced] using ha
  | cons c cs ih =>
    obtain ⟨hr', ht⟩ := perform_spec hr c name
    have := ih hr' (ha.step ht)
    simpa [Registry.performAll, announced, List.append_assoc] using this

/-- The network is active if it was announced last that it came. -/
theorem Accords.getLast?_eq {kinds : List Event.Kind} (ha : r.Accords name kinds) :
    kinds.getLast? = some .newNetwork ↔ r.active name = true := by
  rw [ha.parity, List.getLast?_eq_getElem?]
  cases hl : kinds[kinds.length - 1]? with
  | none =>
    have hlen := List.getElem?_eq_none_iff.1 hl
    exact iff_of_false (by simp) (by omega)
  | some kind =>
    have hlen := (List.getElem?_eq_some_iff.1 hl).1
    have hkind := ha.alternate _ _ hl
    rw [hkind, Option.some_inj]
    split <;> simp <;> omega

theorem active_iff (r : Registry) (name : String) :
    r.active name = true ↔ ∃ n, r.named? name = some n ∧ n.phase = .active := by
  unfold active
  rw [Option.any_eq_true]
  simp

end Registry

/-! ### What the listener hears -/

/-- The events that are delivered to the listener. -/
def heard (out : List Delivery) : List Notice :=
  out.filterMap fun
    | .heard e n => some (e, n)
    | .logged _ => none

@[simp] theorem heard_append (a b : List Delivery) : heard (a ++ b) = heard a ++ heard b := by
  simp [heard]

namespace Site

open Registry (Command)

/-- An operation on the registry of a site. -/
def perform (s : Site) (c : Command) : Site × List Delivery :=
  let (s, _, out) := s.onRegistry fun r => ((r.perform c).1, (), (r.perform c).2)
  (s, out)

/-- A sequence of operations on the registry of a site, and all that was
delivered. -/
def performAll (s : Site) : List Command → Site × List Delivery
  | [] => (s, [])
  | c :: cs => (((s.perform c).1.performAll cs).1,
      (s.perform c).2 ++ ((s.perform c).1.performAll cs).2)

theorem listening_deliver (s : Site) (j : Journal) :
    (s.deliver j).1.listening = s.listening := by
  obtain ⟨qs, h⟩ := s.deliver_eq j
  rw [h]

/-- A queue says nothing to the listener. -/
theorem heard_push (s : Site) (i : Nat) (e : Event) : heard (s.push i e).2.2 = [] := by
  unfold push
  split
  · rfl
  · simp only
    split <;> rfl

theorem heard_enqueue (s : Site) (e : Event) : heard (s.enqueue e).2 = [] := by
  unfold enqueue
  split
  · rfl
  · exact s.heard_push _ e

/-- The listener hears of every event, whether the queue takes it or not. -/
theorem heard_deliver (j : Journal) {s : Site} (hs : s.listening = true) :
    heard (s.deliver j).2 = j.notices := by
  induction j generalizing s with
  | nil => rfl
  | cons entry rest ih =>
    cases entry with
    | remark r =>
      have hrest := ih hs
      simpa [deliver, deliverEntry, heard] using hrest
    | notice e n =>
      have hs' : (s.enqueue e).1.listening = true := by
        obtain ⟨qs, h⟩ := s.enqueue_eq e
        rw [h]
        exact hs
      have hrest := ih hs'
      simp only [deliver, deliverEntry, hs, if_true, heard_append, heard_enqueue, hrest,
        Journal.notices_notice_cons, List.append_nil]
      rfl

theorem hub_perform (s : Site) (c : Command) :
    (s.perform c).1.hub = { s.hub with registry := (s.hub.registry.perform c).1 } := by
  simp only [perform, onRegistry, hub_deliver]

theorem listening_perform (s : Site) (c : Command) : (s.perform c).1.listening = s.listening := by
  simp only [perform, onRegistry, listening_deliver]

theorem heard_perform {s : Site} (hs : s.listening = true) (c : Command) :
    heard (s.perform c).2 = (s.hub.registry.perform c).2.notices := by
  simp only [perform, onRegistry]
  exact heard_deliver _ hs

/-- What a site does with its registry and lets hear is what the registry does
and notifies. -/
theorem performAll_eq {s : Site} (hs : s.listening = true) (cs : List Command) :
    (s.performAll cs).1.listening = true ∧
      (s.performAll cs).1.hub.registry = (s.hub.registry.performAll cs).1 ∧
      heard (s.performAll cs).2 = (s.hub.registry.performAll cs).2 := by
  induction cs generalizing s with
  | nil => exact ⟨hs, rfl, rfl⟩
  | cons c cs ih =>
    have hreg : (s.perform c).1.hub.registry = (s.hub.registry.perform c).1 := by
      rw [hub_perform]
    have := ih ((s.listening_perform c).trans hs)
    rw [hreg] at this
    refine ⟨this.1, this.2.1, ?_⟩
    rw [performAll, heard_append, heard_perform hs, this.2.2]
    rfl

/-- **Announcements alternate.** However the networks of a site come and go, what
the listener hears of a name alternates between its coming and its going, the
first being that it came; it heard last that the network came exactly if there
is an active network of the name; and each announcement comes with the network
it is about, as it is in the table after it came, or was before it went. -/
theorem announced_performAll (config : Config) (queues : Array Event.Queue) (current : Option Nat)
    (commands : List Command) (name : String) :
    let s : Site :=
      { ofConfig config with listening := true, queues := queues, current := current }
    Registry.Alternate (announced name (heard (s.performAll commands).2)) ∧
      ((announced name (heard (s.performAll commands).2)).getLast? = some .newNetwork ↔
        ∃ n, (s.performAll commands).1.hub.registry.named? name = some n ∧ n.phase = .active) ∧
      ∀ before c after, commands = before ++ c :: after →
        ∀ e n?, (e, n?) ∈ announcements name (heard ((s.performAll before).1.perform c).2) →
          ∃ n, n? = some n ∧ n.name = e.network ∧ n.phase = .active ∧
            (e.kind = .newNetwork →
              ((s.performAll before).1.perform c).1.hub.registry.named? name = some n) ∧
            (e.kind = .networkDisconnected →
              ((s.performAll before).1.hub.registry.named? name).map c.parting = some n) := by
  intro s
  have hwf : s.hub.registry.WellFormed := Registry.wellFormed_empty config
  obtain ⟨-, hreg, hheard⟩ := performAll_eq (s := s) rfl commands
  have hempty : s.hub.registry.Accords name [] := by
    refine ⟨fun i kind hi => by simp at hi, iff_of_false ?_ (by simp)⟩
    rw [Registry.active_of_none]
    · exact Bool.false_ne_true
    · exact (Registry.named?_eq_none_iff hwf).2 fun h n hn => by simp [s, ofConfig, Hub.ofConfig] at hn
  have haccords := hempty.performAll hwf commands
  rw [List.nil_append, ← hheard, ← hreg] at haccords
  refine ⟨haccords.alternate, haccords.getLast?_eq.trans (Registry.active_iff _ name), ?_⟩
  intro before c after _ e n? hmem
  obtain ⟨hlisten, hreg, -⟩ := performAll_eq (s := s) rfl before
  have hwf' : (s.performAll before).1.hub.registry.WellFormed :=
    hreg ▸ Registry.wellFormed_performAll hwf before
  obtain ⟨-, ht⟩ := Registry.perform_spec hwf' c name
  rw [heard_perform hlisten] at hmem
  rw [hub_perform]
  exact ht.of_mem hmem

end Site
end SignalRegistry
