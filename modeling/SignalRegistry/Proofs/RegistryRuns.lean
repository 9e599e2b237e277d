/-
# Runs of a registry

A registry changes by its own operations, by operations on one of its networks
that a handle leads to, and by a clearance. Whatever the order, it stays a map
from names to networks (`Registry.wellFormed_run`), and no network gets a shortcut
to a block that no operation has brought (`Registry.each_run`).

Key definitions: `Registry.Operation`, `Registry.operate`, `Registry.run`,
`Registry.Operation.blocks`, `Registry.LeadsTo`, `Registry.reached`.
Key theorems: `Registry.WellFormed.operate`, `Registry.wellFormed_run`,
`Registry.each_operate`, `Registry.each_run`.
-/
import SignalRegistry.Proofs.Announcement
import SignalRegistry.Proofs.SignalTable

namespace SignalRegistry

namespace Network

variable {n : Network} {a : Action}

/-- The block to which the operation may add a shortcut. -/
def Action.block? : Action → Option BlockRef
  | .link block => some block
  | _ => none

theorem act_name (n : Network) (a : Action) : (n.act a).1.name = n.name := by
  cases a with
  | putSignal s =>
    obtain ⟨signals, h⟩ := n.putSignal_eq s
    exact (congrArg Network.name h).trans rfl
  | link block => exact n.link_name block
  | _ => rfl

/-- An operation on a network adds a shortcut to its own block at most. -/
theorem mem_blocks_act (hn : n.WellFormed) {b : BlockRef}
    (hb : b ∈ (n.act a).1.shortcuts.blocks) : b ∈ n.shortcuts.blocks ∨ a.block? = some b := by
  cases a with
  | putSignal s =>
    obtain ⟨signals, h⟩ := n.putSignal_eq s
    have hsame : (n.putSignal s).1.shortcuts.blocks = n.shortcuts.blocks := by rw [h]
    exact Or.inl (hsame ▸ hb)
  | eraseSignal h => exact Or.inl hb
  | link block =>
    exact (mem_blocks_link hn.shortcuts hb).imp_right fun h => congrArg some h.symm
  | unlink h =>
    have hlist : (n.unlink h).1.shortcuts.toList = n.shortcuts.toList.filter (·.1 ≠ h) :=
      (Shortcuts.holds_erase hn.shortcuts h).toList_eq
    obtain ⟨e, he, rfl⟩ := List.mem_map.1 hb
    exact Or.inl (List.mem_map_of_mem (List.mem_of_mem_filter (hlist ▸ he)))
  | lookup alive block device number =>
    exact Or.inl ((blocks_lookup_sublist block device number hn.shortcuts).subset hb)
  | forget alive block => exact Or.inl ((blocks_forget_sublist hn.shortcuts).subset hb)
  | clear => exact absurd hb List.not_mem_nil

end Network

namespace Registry

variable {r r' : Registry}

/-- An operation on a registry, or on the network that a handle leads to. -/
inductive Operation where
  | command (c : Command)
  | onNetwork (h : Handle) (a : Network.Action)
  | clear

/-- The blocks to which the operation may add a shortcut. -/
def Operation.blocks : Operation → List BlockRef
  | .command (.registerDevice _ info _ _) => [info]
  | .command (.linkBlock block) => [block]
  | .command _ => []
  | .onNetwork _ a => a.block?.toList
  | .clear => []

def operate (r : Registry) : Operation → Registry
  | .command c => (r.perform c).1
  | .onNetwork h a => r.modifyNetwork h fun n => (n.act a).1
  | .clear => r.clear

def run (r : Registry) (operations : List Operation) : Registry := operations.foldl operate r

theorem modifyNetwork_of_none {h : Handle} (hn : r.networks.get? h = none) (f : Network → Network) :
    r.modifyNetwork h f = r := by
  have harena : r.networks.arena.get? h = none := Option.map_eq_none_iff.1 hn
  unfold modifyNetwork Index.modify Arena.modify
  rw [harena]
  rfl

theorem each_clear (r : Registry) (P : Network → Prop) : r.clear.Each P := fun h n hn => by
  simp [clear] at hn

/-- The well-formedness of a registry is kept by every operation. -/
theorem WellFormed.operate (hr : r.WellFormed) (o : Operation) : (r.operate o).WellFormed := by
  cases o with
  | command c => exact (perform_spec hr c "").1
  | onNetwork h a =>
    cases hn : r.networks.get? h with
    | none =>
      have hsame : r.operate (.onNetwork h a) = r := modifyNetwork_of_none hn _
      exact hsame.symm ▸ hr
    | some n =>
      exact (updates_modifyNetwork hr hn (n.act_name a) ((hr.each h n hn).act a)).wellFormed
  | clear => exact wellFormed_empty r.config

theorem wellFormed_run (hr : r.WellFormed) (operations : List Operation) :
    (r.run operations).WellFormed := by
  induction operations generalizing r with
  | nil => exact hr
  | cons o operations ih => exact ih (hr.operate o)

/-! ### Where shortcuts come from -/

section Brought

variable {K : BlockRef → Prop}

/-- All shortcuts lead to such blocks. -/
def LeadsTo (K : BlockRef → Prop) (n : Network) : Prop := ∀ b ∈ n.shortcuts.blocks, K b

theorem leadsTo_of_empty {n : Network} (hn : n.shortcuts = .empty) : LeadsTo K n := by
  intro b hb
  rw [hn] at hb
  exact absurd hb List.not_mem_nil

theorem leadsTo_leftOver {n m : Network} (hm : r.leftOver n = some m) : LeadsTo K m := by
  unfold leftOver at hm
  split at hm
  · cases hm
  · obtain rfl := Option.some_inj.1 hm
    exact leadsTo_of_empty rfl

/-- A network that is found or created has the shortcuts it had, or none. -/
theorem leadsTo_provided (hr : r.WellFormed) (he : r.Each (LeadsTo K)) {name : String}
    {n : Network} (hp : r.provided name = .ok n) : LeadsTo K n := by
  obtain ⟨-, -, hn | ⟨-, hnew⟩⟩ := provided_eq_ok hr hp
  · exact (each_iff hr).1 he name n hn
  · exact leadsTo_of_empty (congrArg Network.shortcuts (Network.ofName_eq_ok hnew).1)

theorem each_perform (hr : r.WellFormed) (he : r.Each (LeadsTo K)) (c : Command)
    (hc : ∀ b ∈ (Operation.command c).blocks, K b) : (r.perform c).1.Each (LeadsTo K) := by
  cases c with
  | ensureNetwork name =>
    cases hp : r.provided name with
    | error e =>
      simp only [perform, ensureNetwork_error hr hp]
      exact he
    | ok n =>
      obtain ⟨r', h, j, hensure, -, -, hu⟩ := ensureNetwork_ok hr hp
      simp only [perform, hensure]
      refine hu.each hr he fun m hm => ?_
      exact Option.some_inj.1 hm ▸ leadsTo_provided hr he hp
  | registerDevice alive info content sizeOf =>
    rcases registerDevice_spec hr alive info content sizeOf with
      ⟨why, j, -, hout, -⟩ | ⟨r', layouts, j, n, m, hout, -, hp, hm, hu, -⟩
    · simp only [perform, hout]
      exact he
    · simp only [perform, hout]
      obtain ⟨-, hwf, -⟩ := provided_eq_ok hr hp
      refine hu.each hr he fun m' hm' b hb => ?_
      rw [← Option.some_inj.1 hm', hm] at hb
      rcases Network.mem_blocks_register hwf hb with hb | rfl
      · exact leadsTo_provided hr he hp b hb
      · exact hc b List.mem_cons_self
  | linkBlock block =>
    refine (linkBlock_spec hr block).each hr he fun m hm b hb => ?_
    obtain ⟨n, hn, rfl⟩ := Option.map_eq_some_iff.1 hm
    obtain ⟨h, hg, -⟩ := (named?_eq_some_iff hr).1 hn
    rcases Network.mem_blocks_link (hr.each h n hg).shortcuts hb with hb | rfl
    · exact he h n hg b hb
    · exact hc b List.mem_cons_self
  | forget alive block =>
    cases hn : r.named? block.identity.network.text with
    | none =>
      simp only [perform, forget_none hr alive hn]
      exact he
    | some n =>
      obtain ⟨h, hg, -⟩ := (named?_eq_some_iff hr).1 hn
      refine (forget_spec hr alive block hn).1.each hr he fun m hm => ?_
      unfold afterForget at hm
      simp only at hm
      split at hm
      · exact leadsTo_leftOver hm
      · obtain rfl := Option.some_inj.1 hm
        exact fun b hb => he h n hg b
          ((Network.blocks_forget_sublist (hr.each h n hg).shortcuts).subset hb)
  | eraseNetwork h =>
    cases hn : r.networks.get? h with
    | none =>
      simp only [perform, eraseNetwork_none hn]
      exact he
    | some n => exact (eraseNetwork_spec hr hn).1.each hr he fun m hm => by cases hm

/-- An operation adds no shortcut but those to its own blocks. -/
theorem each_operate (hr : r.WellFormed) (he : r.Each (LeadsTo K)) (o : Operation)
    (ho : ∀ b ∈ o.blocks, K b) : (r.operate o).Each (LeadsTo K) := by
  cases o with
  | command c => exact each_perform hr he c ho
  | onNetwork h a =>
    cases hn : r.networks.get? h with
    | none =>
      have hsame : r.operate (.onNetwork h a) = r := modifyNetwork_of_none hn _
      exact hsame.symm ▸ he
    | some n =>
      have hwf := hr.each h n hn
      refine (updates_modifyNetwork hr hn (n.act_name a) (hwf.act a)).each hr he fun m hm b hb => ?_
      rw [← Option.some_inj.1 hm] at hb
      rcases Network.mem_blocks_act hwf hb with hb | hblock
      · exact he h n hn b hb
      · exact ho b (Option.mem_toList.2 hblock)
  | clear => exact each_clear r _

/-- By induction on the run: a network has shortcuts only to blocks that operations
brought. -/
theorem each_run (hr : r.WellFormed) (he : r.Each (LeadsTo K)) (operations : List Operation)
    (ho : ∀ o ∈ operations, ∀ b ∈ o.blocks, K b) : (r.run operations).Each (LeadsTo K) := by
  induction operations generalizing r with
  | nil => exact he
  | cons o operations ih =>
    have hfirst := each_operate hr he o (ho o List.mem_cons_self)
    exact ih (hr.operate o) hfirst fun o' ho' => ho o' (List.mem_cons_of_mem o ho')

end Brought

/-- The registry after a run of operations on one without networks. -/
abbrev reached (config : Config) (operations : List Operation) : Registry :=
  ({ config := config } : Registry).run operations

theorem wellFormed_reached (config : Config) (operations : List Operation) :
    (reached config operations).WellFormed :=
  wellFormed_run (wellFormed_empty config) operations

/-- In a registry that was reached, shortcuts lead to blocks that operations brought. -/
theorem each_reached {K : BlockRef → Prop} (config : Config) (operations : List Operation)
    (ho : ∀ o ∈ operations, ∀ b ∈ o.blocks, K b) : (reached config operations).Each (LeadsTo K) :=
  each_run (wellFormed_empty config) (fun h n hn => by simp at hn) operations ho

end Registry
end SignalRegistry
