/-
# The cursor follows the rules of a layout

A layout is computed by a cursor that goes through the groups of a block once. The
rules say where its signals are without a cursor: the type of a signal is the one
that was set last, its start is its own address or the end of the signal before, and
it ends after its extent, all in unbounded arithmetic. So a signal is described by
its declaration and all that was met before it, a `Visit`.

A step of the cursor is a visit (`Layout.place_eq`), and a run of it all visits until
one is at fault (`Layout.foldlM_advance`). So the first fault is the error of a block,
and without one its layout is that of the rules (`Layout.ofGroups_exact`).

Key definitions: `Layout.Visit`, `Layout.Visit.fault`, `Layout.FollowsRules`.
Key theorems: `Layout.place_eq`, `Layout.foldlM_advance`, `Layout.ofGroups_exact`.
-/
import Mathlib.Data.List.Forall2
import SignalRegistry.Proofs.Elements
import SignalRegistry.Proofs.Layout

namespace SignalRegistry

/-- The address that is declared, unless it is negative. -/
def Declaration.address? (d : Declaration) : Option Nat :=
  (d.address.filter (0 ≤ ·)).map Int.toNat

namespace Layout

/-! ### The rules -/

/-- What is met on the way through the groups of a block. -/
inductive Mark where
  | enter (group : Option String)
  | signal (d : Declaration)

/-- The type that is set where a group is entered or a signal declares one. -/
def Mark.type? : Mark → Option ElementType
  | .enter group => if group = some "inputs" ∨ group = some "outputs" then some .boolean else none
  | .signal d => d.type.bind ElementType.ofName?

/-- All that is met in a block, in order. -/
def marks (groups : List SignalGroup) : List Mark :=
  groups.flatMap fun g => .enter g.name :: g.signals.map .signal

/-- The type that was set last; what was met last is first in the list. -/
def currentType (earlier : List Mark) : ElementType :=
  (earlier.findSome? Mark.type?).getD .ushort

/-- A count as declared, and at least one. -/
def exactCount (declared : Option Int) : Nat := (max (declared.getD 1) 1).toNat

/-- The end of the signal met last, in unbounded arithmetic. -/
def lastStop : List Mark → Nat
  | [] => 0
  | .enter _ :: earlier => lastStop earlier
  | .signal d :: earlier => d.address?.getD (lastStop earlier) +
      (currentType (.signal d :: earlier)).exactExtent (exactCount d.array)

/-- A signal and what was met before it, the last first. -/
structure Visit where
  declaration : Declaration
  earlier : List Mark

/-- The signals among what is met, in order. -/
def visitsAfter (earlier : List Mark) : List Mark → List Visit
  | [] => []
  | .enter group :: rest => visitsAfter (.enter group :: earlier) rest
  | .signal d :: rest => ⟨d, earlier⟩ :: visitsAfter (.signal d :: earlier) rest

/-- The signals of a block, in order. -/
def visits (groups : List SignalGroup) : List Visit := visitsAfter [] (marks groups)

namespace Visit

variable (v : Visit)

def type : ElementType := currentType (.signal v.declaration :: v.earlier)

def start : Nat := v.declaration.address?.getD (lastStop v.earlier)

def count : Nat := exactCount v.declaration.array

def columns : Nat := exactCount v.declaration.columns

def stop : Nat := v.start + v.type.exactExtent v.count

def isNamed : Bool := v.declaration.name.isSome

/-- The type that is declared has no such name. -/
def HasUnknownType : Prop := ∃ name ∈ v.declaration.type, ElementType.ofName? name = none

/-- The address that is declared, a count or the end is too large. -/
def IsOutOfRange : Prop :=
  (∃ a ∈ v.declaration.address?, limit < a) ∨ limit < v.count ∨ limit < v.columns ∨ limit < v.stop

instance : Decidable v.HasUnknownType := inferInstanceAs (Decidable (∃ name ∈ _, _))

instance : Decidable v.IsOutOfRange := inferInstanceAs (Decidable (_ ∨ _ ∨ _ ∨ _))

/-- What is wrong with a signal; an unknown type comes first. -/
def fault : Option Defect :=
  if v.HasUnknownType then some .unknownType
  else if v.IsOutOfRange then some .outOfRange
  else none

/-- A signal is listed where it is. -/
structure Places (p : Placement) : Prop where
  name : v.declaration.name = some p.name
  address : p.address.toNat = v.start
  count : p.count.toNat = v.count
  columns : p.columns.toNat = v.columns
  type : p.type = v.type

end Visit

/-- What is wrong with the first signal of a block that has a fault. -/
def firstFault (groups : List SignalGroup) : Option Defect := (visits groups).findSome? Visit.fault

/-- The largest end of the signals of a block. -/
def largestStop (groups : List SignalGroup) : Nat := ((visits groups).map Visit.stop).max?.getD 0

/-- The layout of a block is the one of the rules: it lists the signals that have a
name, and its size is the largest end of all of them. -/
structure FollowsRules (l : Layout) (block : String) (groups : List SignalGroup) : Prop where
  block : l.block = block
  signals : List.Forall₂ Visit.Places ((visits groups).filter Visit.isNamed) l.signals
  within : ∀ v ∈ visits groups, v.stop ≤ l.size.toNat
  size : l.size.toNat = largestStop groups

/-! ### A step of the cursor -/

/-- The cursor is where the rules say after what was met. -/
structure StandsAfter (c : LayoutCursor) (earlier : List Mark) : Prop where
  next : c.next = lastStop earlier
  type : c.type = currentType earlier

namespace Visit

variable {v : Visit} {c : LayoutCursor}

theorem fault_of_unknownType (h : v.HasUnknownType) : v.fault = some .unknownType := if_pos h

theorem fault_of_isOutOfRange (htype : ¬ v.HasUnknownType) (h : v.IsOutOfRange) :
    v.fault = some .outOfRange := by
  rw [fault, if_neg htype, if_pos h]

theorem fault_eq_none_iff : v.fault = none ↔ ¬ v.HasUnknownType ∧ ¬ v.IsOutOfRange := by
  unfold fault
  split
  · simp [*]
  · split <;> simp [*]

/-- What is not at fault is small enough to be stored. -/
theorem le_limit (hv : v.fault = none) :
    v.count ≤ limit ∧ v.columns ≤ limit ∧ v.stop ≤ limit := by
  have hrange := (fault_eq_none_iff.1 hv).2
  simp only [IsOutOfRange, not_or, Nat.not_lt] at hrange
  exact hrange.2

/-- The entry of a signal in the layout, if it has a name. -/
def placement? (v : Visit) : Option Placement :=
  v.declaration.name.map fun name =>
    { name := name, address := .ofNat v.start, count := .ofNat v.count,
      columns := .ofNat v.columns, type := v.type }

/-- Nothing wraps where nothing is at fault. -/
theorem places_iff (hv : v.fault = none) (p : Placement) : v.Places p ↔ v.placement? = some p := by
  obtain ⟨hcount, hcolumns, hstop⟩ := le_limit hv
  have hstart : v.start ≤ limit := Nat.le_trans (Nat.le_add_right _ _) hstop
  constructor
  · rintro ⟨hname, haddress, hn, hcols, htype⟩
    rw [placement?, hname, ← haddress, ← hn, ← hcols, ← htype, UInt32.ofNat_toNat,
      UInt32.ofNat_toNat, UInt32.ofNat_toNat]
    rfl
  · intro hplaced
    obtain ⟨name, hname, rfl⟩ := Option.map_eq_some_iff.1 hplaced
    exact ⟨hname, toNat_ofNat_of_le hstart, toNat_ofNat_of_le hcount,
      toNat_ofNat_of_le hcolumns, rfl⟩

end Visit

/-- The type of a signal is known, or else this is its fault. -/
theorem elementType_eq (v : Visit) : elementType (currentType v.earlier) v.declaration.type =
    if v.HasUnknownType then .error .unknownType else .ok v.type := by
  obtain ⟨⟨name, type, address, array, columns⟩, earlier⟩ := v
  unfold elementType Visit.HasUnknownType Visit.type currentType
  rw [List.findSome?_cons, Mark.type?]
  cases type with
  | none => simp
  | some name => cases h : ElementType.ofName? name <;> simp [h]

theorem address_eq (next : Nat) (d : Declaration) : address next d.address =
    if ∃ a ∈ d.address?, limit < a then .error .outOfRange else .ok (d.address?.getD next) := by
  obtain ⟨name, type, declared, array, columns⟩ := d
  unfold address Declaration.address?
  cases declared with
  | none => simp
  | some a =>
    cases a with
    | ofNat n => simp [Option.filter_some]
    | negSucc n => simp [Option.filter_some]

theorem count_eq (declared : Option Int) : count declared =
    if limit < exactCount declared then .error .outOfRange else .ok (exactCount declared) := by
  have hone : 1 ≤ limit := by decide
  have hcount : exactCount declared = max (declared.getD 1).toNat 1 := by
    unfold exactCount
    omega
  unfold count
  simp only
  rw [hcount]
  by_cases h : limit < (declared.getD 1).toNat
  · rw [if_pos h, if_pos (by omega)]
  · rw [if_neg h, if_neg (by omega)]

/-- A signal with no more elements than are allowed has its exact size. -/
theorem extent_eq_of_le (type : ElementType) {n : Nat} (hn : n ≤ limit) :
    type.extent n = type.exactExtent n := by
  refine ElementType.extent_eq_exactExtent ?_
  simp only [limit, UInt32.size] at hn
  cases type with
  | boolean =>
    simp only [ElementType.extent, sizeLimit, UInt64.size]
    split <;> omega
  | _ =>
    simp only [ElementType.extent, ElementType.size, sizeLimit, UInt64.size]
    omega

/-- The cursor goes from the start of a signal to its end, or stops with its fault. -/
theorem place_eq {c : LayoutCursor} {v : Visit} (hc : StandsAfter c v.earlier) :
    place c v.declaration = match v.fault with
      | some e => .error e
      | none => .ok { next := v.stop, size := max c.size v.stop, type := v.type,
                      signals := c.signals ++ v.placement?.toList } := by
  have hstart : address (lastStop v.earlier) v.declaration.address =
      if ∃ a ∈ v.declaration.address?, limit < a then .error .outOfRange else .ok v.start :=
    address_eq _ _
  have hn : count v.declaration.array =
      if limit < v.count then .error .outOfRange else .ok v.count := count_eq _
  have hcols : count v.declaration.columns =
      if limit < v.columns then .error .outOfRange else .ok v.columns := count_eq _
  unfold place
  rw [hc.type, hc.next, elementType_eq, hstart, hn, hcols]
  by_cases htype : v.HasUnknownType
  · rw [Visit.fault_of_unknownType htype, if_pos htype]
    rfl
  rw [if_neg htype]
  -- Whichever of the other checks fails first, the error is the same.
  by_cases haddress : ∃ a ∈ v.declaration.address?, limit < a
  · rw [Visit.fault_of_isOutOfRange htype (Or.inl haddress), if_pos haddress]
    rfl
  rw [if_neg haddress]
  by_cases hcount : limit < v.count
  · rw [Visit.fault_of_isOutOfRange htype (Or.inr (Or.inl hcount)), if_pos hcount]
    rfl
  rw [if_neg hcount]
  by_cases hcolumns : limit < v.columns
  · rw [Visit.fault_of_isOutOfRange htype (Or.inr (Or.inr (Or.inl hcolumns))), if_pos hcolumns]
    rfl
  rw [if_neg hcolumns]
  have hextent : v.stop = v.start + v.type.extent v.count := by
    rw [extent_eq_of_le v.type (Nat.le_of_not_lt hcount), Visit.stop]
  by_cases hstop : limit < v.stop
  · rw [Visit.fault_of_isOutOfRange htype (Or.inr (Or.inr (Or.inr hstop)))]
    rw [hextent] at hstop
    exact if_pos hstop
  · have hrange : ¬ v.IsOutOfRange := by
      simp only [Visit.IsOutOfRange, not_or]
      exact ⟨haddress, hcount, hcolumns, hstop⟩
    rw [Visit.fault_eq_none_iff.2 ⟨htype, hrange⟩]
    rw [hextent] at hstop ⊢
    exact if_neg hstop

/-! ### A run of the cursor -/

/-- A group that is entered, or a signal that is laid out. -/
def advance (c : LayoutCursor) : Mark → Except Defect LayoutCursor
  | .enter group => .ok (enter c group)
  | .signal d => place c d

/-- The cursor goes through all that is met in a block, in order. -/
theorem foldlM_groups (groups : List SignalGroup) (c : LayoutCursor) :
    groups.foldlM (fun c g => g.signals.foldlM place (enter c g.name)) c =
      (marks groups).foldlM advance c := by
  induction groups generalizing c with
  | nil => rfl
  | cons g groups ih =>
    have hgroup : g.signals.foldlM place (enter c g.name) =
        (.enter g.name :: g.signals.map .signal).foldlM advance c := by
      show _ = (g.signals.map Mark.signal).foldlM advance (enter c g.name)
      rw [List.foldlM_map]
      rfl
    rw [List.foldlM_cons, hgroup, marks, List.flatMap_cons, List.foldlM_append]
    exact congrArg _ (funext fun c' => ih c')

/-- Only the type is set where a group is entered. -/
theorem enter_eq {c : LayoutCursor} {earlier : List Mark} (hc : StandsAfter c earlier)
    (group : Option String) :
    enter c group = { c with type := currentType (.enter group :: earlier) } := by
  unfold enter currentType
  rw [List.findSome?_cons, Mark.type?]
  split
  · rfl
  · show c = { c with type := currentType earlier }
    rw [← hc.type]

/-- The cursor stops at the first fault. If there is none, it has visited all
signals. -/
theorem foldlM_advance {c : LayoutCursor} {earlier : List Mark} (hc : StandsAfter c earlier)
    (rest : List Mark) :
    rest.foldlM advance c = match (visitsAfter earlier rest).findSome? Visit.fault with
      | some e => .error e
      | none => .ok
          { next := lastStop (rest.reverse ++ earlier)
            size := ((visitsAfter earlier rest).map Visit.stop).foldl max c.size
            type := currentType (rest.reverse ++ earlier)
            signals := c.signals ++ (visitsAfter earlier rest).filterMap Visit.placement? } := by
  -- What is met goes from the front of the rest to the front of what was met.
  induction rest generalizing c earlier with
  | nil =>
    rw [List.foldlM_nil, visitsAfter, List.filterMap_nil, List.append_nil, List.reverse_nil,
      List.nil_append, ← hc.next, ← hc.type]
    rfl
  | cons mark rest ih =>
    rw [List.foldlM_cons, List.reverse_cons, List.append_assoc, List.singleton_append]
    cases mark with
    | enter group =>
      rw [visitsAfter, advance, enter_eq hc]
      exact ih ⟨hc.next, rfl⟩
    | signal d =>
      rw [visitsAfter, List.findSome?_cons, advance]
      have hstep := place_eq (v := ⟨d, earlier⟩) hc
      -- The end of a visit is where the cursor stands after it.
      have hnext (size : Nat) (signals : List Placement) :
          StandsAfter ⟨Visit.stop ⟨d, earlier⟩, size, Visit.type ⟨d, earlier⟩, signals⟩
            (.signal d :: earlier) := ⟨rfl, rfl⟩
      rw [hstep]
      cases hfault : Visit.fault ⟨d, earlier⟩ with
      | some e => rfl
      | none =>
        refine Eq.trans (ih (hnext _ _)) ?_
        simp only [List.filterMap_eq_flatMap_toList, List.flatMap_cons, List.map_cons,
          List.foldl_cons, List.append_assoc]

theorem ofGroups_eq (block : String) (groups : List SignalGroup) :
    ofGroups block groups = match firstFault groups with
      | some e => .error e
      | none => .ok { block := block, signals := (visits groups).filterMap Visit.placement?,
                      size := .ofNat (largestStop groups) } := by
  have hlargest : largestStop groups = ((visits groups).map Visit.stop).foldl max 0 := by
    unfold largestStop
    cases (visits groups).map Visit.stop with
    | nil => rfl
    | cons a as => rw [List.foldl_cons, Nat.zero_max]; rfl
  have hstart : StandsAfter {} [] := ⟨rfl, rfl⟩
  unfold ofGroups
  rw [foldlM_groups, foldlM_advance hstart, hlargest]
  unfold firstFault visits
  cases (visitsAfter [] (marks groups)).findSome? Visit.fault with
  | some e => rfl
  | none => rfl

/-! ### The layout of the rules -/

theorem largestStop_le {groups : List SignalGroup} (h : firstFault groups = none) :
    largestStop groups ≤ limit := by
  unfold largestStop
  cases hmax : ((visits groups).map Visit.stop).max? with
  | none => exact Nat.zero_le limit
  | some stop =>
    obtain ⟨v, hv, rfl⟩ := List.mem_map.1 (List.max?_mem hmax)
    exact (Visit.le_limit (List.findSome?_eq_none_iff.1 h v hv)).2.2

/-- The entries of a layout are those of the signals that have a name. -/
theorem forall₂_places_iff {vs : List Visit} (h : ∀ v ∈ vs, v.fault = none)
    (ps : List Placement) :
    List.Forall₂ Visit.Places (vs.filter Visit.isNamed) ps ↔
      vs.filterMap Visit.placement? = ps := by
  induction vs generalizing ps with
  | nil => rw [List.filter_nil, List.filterMap_nil, List.forall₂_nil_left_iff, eq_comm]
  | cons v vs ih =>
    have hrest := ih fun w hw => h w (List.mem_cons_of_mem v hw)
    cases hplaced : v.placement? with
    | none =>
      have hname : ¬ v.isNamed = true := by
        rw [Visit.isNamed, Option.map_eq_none_iff.1 hplaced]
        exact Bool.false_ne_true
      rw [List.filter_cons_of_neg hname, List.filterMap_cons_none hplaced, hrest]
    | some p =>
      have hplaces := (Visit.places_iff (h v List.mem_cons_self) p).2 hplaced
      have hname : v.isNamed = true := by
        rw [Visit.isNamed, hplaces.name]
        rfl
      rw [List.filter_cons_of_pos hname, List.filterMap_cons_some hplaced]
      cases ps with
      | nil => simp
      | cons q ps =>
        rw [List.forall₂_cons, hrest, Visit.places_iff (h v List.mem_cons_self), hplaced,
          Option.some.injEq, List.cons.injEq]

/-- Without a fault there is one layout that follows the rules. -/
theorem followsRules_iff {block : String} {groups : List SignalGroup}
    (h : firstFault groups = none) (l : Layout) :
    FollowsRules l block groups ↔
      l = { block := block, signals := (visits groups).filterMap Visit.placement?,
            size := .ofNat (largestStop groups) } := by
  have hsignals := forall₂_places_iff (List.findSome?_eq_none_iff.1 h)
  have hsize := toNat_ofNat_of_le (largestStop_le h)
  constructor
  · intro hrules
    obtain ⟨name, signals, size⟩ := l
    rw [mk.injEq]
    refine ⟨hrules.block, ((hsignals _).1 hrules.signals).symm, ?_⟩
    rw [← hrules.size, UInt32.ofNat_toNat]
  · rintro rfl
    refine ⟨rfl, (hsignals _).2 rfl, fun v hv => ?_, hsize⟩
    rw [hsize]
    exact List.le_max?_getD_of_mem (List.mem_map_of_mem hv)

/-- Zeros at the end of a table are not read. -/
theorem read_append_zeros (content : Octets) (k : Nat) :
    SignalTable.read (content ++ List.replicate k 0) = SignalTable.read content := by
  have hzeros : ∀ b ∈ List.replicate k (0 : UInt8), (b == 0) = true := fun b hb =>
    beq_iff_eq.2 (List.eq_of_mem_replicate hb)
  unfold SignalTable.read
  rw [List.reverse_append, List.reverse_replicate, List.dropWhile_append_of_pos hzeros]

/-- **A layout follows the rules or shows the first fault.** A block has no layout
exactly if a signal in it is at fault, and the first fault is the error. Otherwise its
layout is the one that follows the rules. Zeros at the end of a table change
nothing. -/
theorem ofGroups_exact (block : String) (groups : List SignalGroup) :
    (∀ e, ofGroups block groups = .error e ↔ firstFault groups = some e) ∧
    (∀ l, ofGroups block groups = .ok l ↔
      firstFault groups = none ∧ FollowsRules l block groups) ∧
    ∀ content k, parse (content ++ List.replicate k 0) = parse content := by
  have heq := ofGroups_eq block groups
  refine ⟨fun e => ?_, fun l => ?_, fun content k => ?_⟩
  · rw [heq]
    cases firstFault groups with
    | none => exact iff_of_false nofun nofun
    | some f => rw [Except.error.injEq, Option.some.injEq]
  · rw [heq]
    cases hfault : firstFault groups with
    | none =>
      rw [followsRules_iff hfault, Except.ok.injEq, eq_comm, eq_self_iff_true, true_and]
    | some f => exact iff_of_false nofun fun h => nomatch h.1
  · rw [parse, parse, read_append_zeros]

/-- A signal without a name moves the cursor and sets the type for the next one; the
type is checked before the count. -/
theorem ofGroups_exact_unnamed :
    ofGroups "exp"
        [⟨some "inputs", [{ name := some "dip_switch_3", address := some 30 },
          { type := some "float", array := some 4 }]⟩,
        ⟨none, [{ name := some "temperature", address := some (-1), array := some 0 }]⟩] =
      .ok ⟨"exp", [⟨"dip_switch_3", 30, 1, 1, .boolean⟩, ⟨"temperature", 48, 1, 1, .float⟩], 53⟩ ∧
    ofGroups "exp" [⟨none, [{ type := some "word", array := some 4294967296 }]⟩] =
      .error .unknownType := by
  constructor
  · refine ((ofGroups_exact "exp" _).2.1 _).2 ⟨by decide, rfl, ?_, by decide, by decide⟩
    exact .cons ⟨rfl, rfl, rfl, rfl, rfl⟩ (.cons ⟨rfl, rfl, rfl, rfl, rfl⟩ .nil)
  · exact ((ofGroups_exact "exp" _).1 _).2 (by decide)

end Layout
end SignalRegistry
