import Hsm.Proofs.Machine.Freshness
import Hsm.Proofs.Machine.Presence
import Mathlib.Data.Finset.Card

/-!
# What validation finds

A rule is said of one region, vertex or transition that is in the model (`Rule`, `Rule.Applies`),
and holds there or not (`Rule.Holds`). Validation checks each rule at each place once
(`Machine.rules`, `Rule.check_iff`), and lists just those that do not hold, followed by the names
that occurred before (`Machine.Reachable.validated`).
-/

namespace Hsm

variable {σ : Type}

/-- A rule at the place that it is about. -/
inductive Rule
  /-- A region has one vertex of the kind at most. -/
  | oneEntry (r : RegionId) (kind : PseudoKind)
  /-- A branch leads somewhere. -/
  | leadsOn (v : VertexId) (kind : PseudoKind)
  /-- A branch has one fallback at most. -/
  | oneElse (v : VertexId) (kind : PseudoKind)
  /-- What is no branch has no fallback. -/
  | noElse (v : VertexId) (kind : PseudoKind)
  /-- One transition at most leads out of an entry point. -/
  | oneWayOut (v : VertexId)
  /-- The only transition out of an entry point has no condition of its own. -/
  | unguarded (v : VertexId)
  /-- A state has one region of the default name at most. -/
  | oneDefault (v : VertexId)
  | finalOutgoing (v : VertexId)
  | finalRegions (v : VertexId)
  | finalEntry (v : VertexId)
  | finalExit (v : VertexId)
  /-- A local transition ends in its source or beneath it. -/
  | staysInside (t : TransitionId)
  deriving DecidableEq

namespace Rule

/-- The element or the transition that the rule is about. -/
def spot : Rule → Element ⊕ TransitionId
  | oneEntry r _ => .inl (.region r)
  | leadsOn v _ | oneElse v _ | noElse v _ | oneWayOut v | unguarded v | oneDefault v
  | finalOutgoing v | finalRegions v | finalEntry v | finalExit v => .inl (.vertex v)
  | staysInside t => .inr t

/-- What the rule is about is of the sort that it is for. -/
def Fits (M : Machine σ) : Rule → Prop
  | oneEntry _ kind => kind ∈ [PseudoKind.initial, .deepHistory, .shallowHistory]
  | leadsOn v kind | oneElse v kind =>
    M.topology.kind v = .pseudo kind ∧ (kind = .choice ∨ kind = .junction)
  | noElse v kind => M.topology.kind v = .pseudo kind ∧ ¬(kind = .choice ∨ kind = .junction)
  | oneWayOut v | unguarded v => ∃ kind, M.topology.kind v = .pseudo kind ∧ kind.isInitial
  | oneDefault v => M.topology.isState v
  | finalOutgoing v | finalRegions v | finalEntry v | finalExit v =>
    M.topology.kind v = .finalState
  | staysInside t => (M.topology.transition t).kind = .within

/-- What the rule is about is in the model, and of the sort that the rule is for. -/
def Applies (M : Machine σ) (i : Rule) : Prop :=
  i.Fits M ∧ match i.spot with
    | .inl e => M.topology.Listed e
    | .inr t => t ∈ M.topology.transitions

def Holds (M : Machine σ) : Rule → Prop
  | oneEntry r kind => ∀ v ∈ (M.topology.region r).vertices, ∀ w ∈ (M.topology.region r).vertices,
    M.topology.kind v = .pseudo kind → M.topology.kind w = .pseudo kind → v = w
  | leadsOn v _ => (M.topology.vertex v).outgoing ≠ []
  | oneElse v _ => ∀ t ∈ (M.topology.vertex v).outgoing, ∀ u ∈ (M.topology.vertex v).outgoing,
    M.guard t = .otherwise → M.guard u = .otherwise → t = u
  | noElse v _ => ∀ t ∈ (M.topology.vertex v).outgoing, M.guard t ≠ .otherwise
  | oneWayOut v => ∀ t ∈ (M.topology.vertex v).outgoing, ∀ u ∈ (M.topology.vertex v).outgoing, t = u
  | unguarded v => ∀ t, (M.topology.vertex v).outgoing = [t] → ∀ decide, M.guard t ≠ .custom decide
  | oneDefault v => ∀ r ∈ (M.topology.vertex v).regions, ∀ s ∈ (M.topology.vertex v).regions,
    (M.topology.region r).name = Topology.defaultRegionName →
      (M.topology.region s).name = Topology.defaultRegionName → r = s
  | finalOutgoing v => (M.topology.vertex v).outgoing = []
  | finalRegions v => (M.topology.vertex v).regions = []
  | finalEntry v => (M.stateBehavior v).entry = []
  | finalExit v => (M.stateBehavior v).exit = []
  | staysInside t => ∃ x ∈ (M.topology.transition t).target,
    (M.topology.transition t).source ∈ M.topology.vertexAncestry x

/-- Whether the rule holds, as validation counts. -/
def check (M : Machine σ) : Rule → Bool
  | oneEntry r kind =>
    ((M.topology.region r).vertices.countP fun v => M.topology.pseudoKind? v = some kind) ≤ 1
  | leadsOn v _ => !(M.topology.vertex v).outgoing.isEmpty
  | oneElse v _ => ((M.topology.vertex v).outgoing.countP fun t => (M.guard t).isOtherwise) ≤ 1
  | noElse v _ => ((M.topology.vertex v).outgoing.countP fun t => (M.guard t).isOtherwise) = 0
  | oneWayOut v => (M.topology.vertex v).outgoing.length ≤ 1
  | unguarded v =>
    match (M.topology.vertex v).outgoing with
    | [only] => (M.guard only).isDefault || (M.guard only).isOtherwise
    | _ => true
  | oneDefault v => ((M.topology.vertex v).regions.countP fun r =>
    (M.topology.region r).name = Topology.defaultRegionName) ≤ 1
  | finalOutgoing v => M.topology.isFinal v
  | finalRegions v => M.topology.isSimple v
  | finalEntry v => (M.stateBehavior v).entry.isEmpty
  | finalExit v => (M.stateBehavior v).exit.isEmpty
  | staysInside t => (M.topology.transition t).target.any fun target =>
    target = (M.topology.transition t).source ||
      M.topology.isDescendant target (M.topology.transition t).source

/-- The breach that is told where the rule does not hold. -/
def told (M : Machine σ) : Rule → Violation
  | oneEntry r kind => .duplicatePseudoState (M.topology.qualifiedName (.region r)) kind
  | leadsOn v kind => .missingOutgoingTransition (M.topology.qualifiedName (.vertex v)) kind
  | oneElse v kind => .multipleElseTransitions (M.topology.qualifiedName (.vertex v)) kind
  | noElse v kind => .unexpectedElseTransition (M.topology.qualifiedName (.vertex v)) kind
  | oneWayOut v => .multipleInitialTransitions (M.topology.qualifiedName (.vertex v))
  | unguarded v => .guardedInitialTransition (M.topology.qualifiedName (.vertex v))
  | oneDefault v => .duplicateDefaultRegion (M.topology.qualifiedName (.vertex v))
  | finalOutgoing v => .finalStateWithTransitions (M.topology.qualifiedName (.vertex v))
  | finalRegions v => .finalStateWithRegions (M.topology.qualifiedName (.vertex v))
  | finalEntry v => .finalStateWithEntry (M.topology.qualifiedName (.vertex v))
  | finalExit v => .finalStateWithExit (M.topology.qualifiedName (.vertex v))
  | staysInside t => .localTargetNotDescendant (M.topology.describe t)

end Rule

/-! ## Counting -/

/-- A list without repetitions has one entry of a sort at most if any two of the sort are one. -/
theorem countP_le_one_iff {α : Type} {p : α → Bool} : ∀ {l : List α}, l.Nodup →
    (l.countP p ≤ 1 ↔ ∀ a ∈ l, ∀ b ∈ l, p a → p b → a = b)
  | [], _ => by simp
  | c :: l, h => by
    obtain ⟨hc, h⟩ := List.nodup_cons.1 h
    have ih := countP_le_one_iff (p := p) h
    by_cases hp : p c
    · have hzero : l.countP p + 1 ≤ 1 ↔ l.countP p = 0 := by omega
      rw [List.countP_cons_of_pos hp, hzero, List.countP_eq_zero]
      constructor
      · intro hnone a ha b hb hpa hpb
        have heq : ∀ d ∈ c :: l, p d → d = c := fun d hd hpd =>
          (List.mem_cons.1 hd).resolve_right fun hd => hnone d hd hpd
        rw [heq a ha hpa, heq b hb hpb]
      · intro hall a ha hpa
        exact hc (hall a (List.mem_cons_of_mem _ ha) c List.mem_cons_self hpa hp ▸ ha)
    · rw [List.countP_cons_of_neg hp, ih]
      simp [hp]

/-- Every entry but the first is repeated. -/
theorem count_repeatedNames (name : String) : ∀ (names seen : List String),
    (Machine.repeatedNames seen names).count name =
      if name ∈ seen then names.count name else names.count name - 1
  | [], seen => by simp [Machine.repeatedNames]
  | n :: names, seen => by
    have ih := count_repeatedNames name names
    unfold Machine.repeatedNames
    by_cases hn : n ∈ seen
    · rw [if_pos hn, List.count_cons, List.count_cons, ih]
      by_cases he : n = name
      · subst he
        simp [hn]
      · simp [he]
    · rw [if_neg hn, List.count_cons, ih]
      by_cases he : n = name
      · subst he
        simp [hn]
      · simp [he, Ne.symm he]

/-- As many entries are repeated as there are more entries than names. -/
theorem length_repeatedNames : ∀ (names seen : List String),
    (Machine.repeatedNames seen names).length + (names.toFinset \ seen.toFinset).card = names.length
  | [], seen => by simp [Machine.repeatedNames]
  | n :: names, seen => by
    unfold Machine.repeatedNames
    by_cases hn : n ∈ seen
    · have ih := length_repeatedNames names seen
      rw [if_pos hn, List.toFinset_cons, Finset.insert_sdiff_of_mem _ (List.mem_toFinset.2 hn)]
      simp only [List.length_cons]
      omega
    · have ih := length_repeatedNames names (n :: seen)
      have hcard : (insert n names.toFinset \ seen.toFinset).card =
          (names.toFinset \ (n :: seen).toFinset).card + 1 := by
        rw [← Finset.card_insert_of_notMem (a := n) (by simp)]
        congr 1
        ext m
        simp only [Finset.mem_sdiff, Finset.mem_insert, List.mem_toFinset, List.mem_cons]
        by_cases hm : m = n <;> simp [hm, hn]
      rw [if_neg hn, List.toFinset_cons, hcard]
      simp only [List.length_cons]
      omega

namespace Rule

variable {M : Machine σ}

theorem isOtherwise_iff {g : Guard σ} : g.isOtherwise ↔ g = .otherwise := by
  cases g <;> simp [Guard.isOtherwise]

theorem isDefault_or_isOtherwise_iff {g : Guard σ} :
    (g.isDefault || g.isOtherwise) ↔ ∀ decide, g ≠ .custom decide := by
  cases g <;> simp [Guard.isDefault, Guard.isOtherwise]

/-- Validation counts right. -/
theorem check_iff (hM : M.topology.WellFormed) (hlinks : M.topology.Linked) (i : Rule) :
    i.check M ↔ i.Holds M := by
  have hpseudo : ∀ v kind, M.topology.pseudoKind? v = some kind ↔
      M.topology.kind v = .pseudo kind := fun v kind =>
    ⟨Topology.kind_of_pseudoKind?, Topology.pseudoKind?_eq⟩
  cases i with
  | oneEntry r kind =>
    rw [check, decide_eq_true_iff, countP_le_one_iff (hM.nodup_vertices r)]
    simp only [decide_eq_true_iff, hpseudo, Holds]
  | leadsOn v kind => simp [check, Holds]
  | oneElse v kind =>
    rw [check, decide_eq_true_iff, countP_le_one_iff (hlinks.nodup_outgoing v)]
    simp only [isOtherwise_iff, Holds]
  | noElse v kind => simp [check, Holds, List.countP_eq_zero, isOtherwise_iff]
  | oneWayOut v =>
    have hcount := countP_le_one_iff (p := fun _ => true) (hlinks.nodup_outgoing v)
    rw [check, decide_eq_true_iff, ← List.countP_true, hcount]
    simp [Holds]
  | unguarded v =>
    rcases ho : (M.topology.vertex v).outgoing with _ | ⟨t, _ | ⟨u, ts⟩⟩
    · simp [check, Holds, ho]
    · simp only [check, Holds, ho, isDefault_or_isOtherwise_iff, List.cons.injEq, and_true,
        forall_eq']
    · simp [check, Holds, ho]
  | oneDefault v =>
    rw [check, decide_eq_true_iff, countP_le_one_iff (hM.nodup_regions v)]
    simp only [decide_eq_true_iff, Holds]
  | finalOutgoing v => simp [check, Holds, Topology.isFinal]
  | finalRegions v => simp [check, Holds, Topology.isSimple]
  | finalEntry v | finalExit v => simp [check, Holds]
  | staysInside t =>
    simp only [check, Holds, Option.any_eq_true, Bool.or_eq_true, decide_eq_true_iff]
    refine exists_congr fun x => and_congr_right fun _ => ?_
    unfold Topology.isDescendant
    rw [Forest.isBelow_iff]
    by_cases hx : x = (M.topology.transition t).source
    · simp [hx, Topology.mem_vertexAncestry_self]
    · simp [hx, Ne.symm hx, Topology.vertexAncestry]

end Rule

namespace Machine

variable (M : Machine σ)

/-! ## The rules in the order in which they are checked -/

/-- The rules for a pseudostate: those for branches, or those for what is no branch. -/
def pseudoRules (v : VertexId) (kind : PseudoKind) : List Rule :=
  if kind = .choice ∨ kind = .junction then [.leadsOn v kind, .oneElse v kind]
  else .noElse v kind :: if kind.isInitial then [.oneWayOut v, .unguarded v] else []

/-- The rules for one place. -/
def rulesAt : Element ⊕ TransitionId → List Rule
  | .inl (.region r) => [PseudoKind.initial, .deepHistory, .shallowHistory].map (.oneEntry r)
  | .inl (.vertex v) =>
    match M.topology.kind v with
    | .pseudo kind => pseudoRules v kind
    | .finalState =>
      [.oneDefault v, .finalOutgoing v, .finalRegions v, .finalEntry v, .finalExit v]
    | .state | .machine => [.oneDefault v]
  | .inr t => if (M.topology.transition t).kind = .within then [.staysInside t] else []

/-- Regions, vertices and transitions that are in the model. -/
def spots : List (Element ⊕ TransitionId) :=
  M.topology.regions.map (.inl ∘ .region) ++ M.topology.vertices.map (.inl ∘ .vertex) ++
    M.topology.transitions.map .inr

def rules : List Rule :=
  M.spots.flatMap M.rulesAt

/-- The rules that do not hold. -/
def broken : List Rule :=
  M.rules.filter fun i => !i.check M

variable {M}

theorem spot_of_mem_pseudoRules {i : Rule} {v : VertexId} {kind : PseudoKind}
    (h : i ∈ pseudoRules v kind) : i.spot = .inl (.vertex v) := by
  unfold pseudoRules at h
  split at h
  · simp only [List.mem_cons, List.not_mem_nil, or_false] at h
    rcases h with rfl | rfl <;> rfl
  · split at h
    · simp only [List.mem_cons, List.not_mem_nil, or_false] at h
      rcases h with rfl | rfl | rfl <;> rfl
    · rw [List.mem_singleton.1 h]
      rfl

theorem spot_of_mem_rulesAt {i : Rule} {s : Element ⊕ TransitionId} (h : i ∈ M.rulesAt s) :
    i.spot = s := by
  unfold rulesAt at h
  split at h
  · obtain ⟨kind, -, rfl⟩ := List.mem_map.1 h
    rfl
  · split at h
    · exact spot_of_mem_pseudoRules h
    · simp only [List.mem_cons, List.not_mem_nil, or_false] at h
      rcases h with rfl | rfl | rfl | rfl | rfl <;> rfl
    all_goals
      rw [List.mem_singleton.1 h]
      rfl
  · split at h
    · rw [List.mem_singleton.1 h]
      rfl
    · exact absurd h List.not_mem_nil

theorem mem_rulesAt_spot {i : Rule} : i ∈ M.rulesAt i.spot ↔ i.Fits M := by
  cases i with
  | oneEntry r kind => simp [rulesAt, Rule.spot, Rule.Fits]
  | staysInside t => simp [rulesAt, Rule.spot, Rule.Fits]
  | leadsOn v k | oneElse v k | noElse v k =>
    simp only [rulesAt, Rule.spot, Rule.Fits]
    cases M.topology.kind v with
    | pseudo kind =>
      simp only [pseudoRules, VertexKind.pseudo.injEq]
      by_cases hk : kind = k
      · subst hk
        split <;> simp [*]
      · split <;> (try split) <;> simp [hk, Ne.symm hk]
    | _ => simp
  | oneWayOut v | unguarded v | oneDefault v | finalOutgoing v | finalRegions v | finalEntry v
  | finalExit v =>
    simp only [rulesAt, Rule.spot, Rule.Fits, Topology.isState]
    cases M.topology.kind v with
    | pseudo kind =>
      cases kind <;>
        simp [pseudoRules, PseudoKind.isInitial, PseudoKind.isHistory, VertexKind.isState]
    | _ => simp [VertexKind.isState]

theorem mem_spots {s : Element ⊕ TransitionId} : s ∈ M.spots ↔ match s with
    | .inl e => M.topology.Listed e
    | .inr t => t ∈ M.topology.transitions := by
  unfold spots
  rcases s with (r | v) | t <;> simp [Topology.Listed]

theorem mem_rules {i : Rule} : i ∈ M.rules ↔ i.Applies M := by
  unfold rules Rule.Applies
  rw [List.mem_flatMap, ← mem_spots, ← mem_rulesAt_spot]
  constructor
  · rintro ⟨s, hs, hi⟩
    obtain rfl := spot_of_mem_rulesAt hi
    exact ⟨hi, hs⟩
  · exact fun ⟨hi, hs⟩ => ⟨_, hs, hi⟩

theorem nodup_rulesAt (s : Element ⊕ TransitionId) : (M.rulesAt s).Nodup := by
  unfold rulesAt
  split
  · simp
  · split
    · unfold pseudoRules
      split
      · simp
      · split <;> simp
    all_goals simp
  · split <;> simp

theorem nodup_spots (hM : M.topology.WellFormed) (hlinks : M.topology.Linked) :
    M.spots.Nodup := by
  have hregions := hM.nodup_all_regions.map (f := Sum.inl (β := TransitionId) ∘ Element.region)
    fun _ _ h => by simpa using h
  have hvertices := hM.nodup_all_vertices.map (f := Sum.inl (β := TransitionId) ∘ Element.vertex)
    fun _ _ h => by simpa using h
  have htransitions := (hM.nodup_all_transitions hlinks).map
    (f := Sum.inr (α := Element)) fun _ _ h => by simpa using h
  refine List.nodup_append'.2 ⟨List.nodup_append'.2 ⟨hregions, hvertices, ?_⟩, htransitions, ?_⟩
  · simp [List.disjoint_left]
  · simp [List.disjoint_left]

theorem nodup_rules (hM : M.topology.WellFormed) (hlinks : M.topology.Linked) :
    M.rules.Nodup := by
  refine List.nodup_flatMap.2 ⟨fun s _ => nodup_rulesAt s, ?_⟩
  refine (nodup_spots hM hlinks).pairwise_of_forall_ne fun s _ s' _ hne i hi hi' => ?_
  exact hne ((spot_of_mem_rulesAt hi).symm.trans (spot_of_mem_rulesAt hi'))

/-! ## What is told -/

variable (M) in
/-- What is told of those of the rules that do not hold. -/
def breaches (rules : List Rule) : List Violation :=
  (rules.filter fun i => !i.check M).map (·.told M)

theorem breaches_cons (i : Rule) (rules : List Rule) :
    M.breaches (i :: rules) = breach (i.check M) (i.told M) ++ M.breaches rules := by
  unfold breaches breach
  cases h : i.check M <;> simp [h]

theorem breaches_append (rules others : List Rule) :
    M.breaches (rules ++ others) = M.breaches rules ++ M.breaches others := by
  simp [breaches]

theorem breaches_flatMap {α : Type} (f : α → List Rule) (l : List α) :
    M.breaches (l.flatMap f) = l.flatMap fun a => M.breaches (f a) := by
  induction l with
  | nil => rfl
  | cons a l ih => rw [List.flatMap_cons, breaches_append, ih, List.flatMap_cons]

theorem breaches_region (r : RegionId) :
    M.breaches (M.rulesAt (.inl (.region r))) = M.regionViolations r := by
  simp only [rulesAt, List.map_cons, List.map_nil, breaches_cons]
  rfl

theorem breaches_pseudo (v : VertexId) (kind : PseudoKind) :
    M.breaches (pseudoRules v kind) = M.pseudoViolations v kind := by
  unfold pseudoRules pseudoViolations
  dsimp only
  have hiff : (decide (kind = .choice) || decide (kind = .junction)) = true ↔
      kind = .choice ∨ kind = .junction := by simp
  by_cases hbranch : kind = .choice ∨ kind = .junction
  · rw [if_pos hbranch, if_pos (hiff.2 hbranch), breaches_cons, breaches_cons]
    exact congrArg _ (List.append_nil _)
  · rw [if_neg hbranch, breaches_cons, if_neg (mt hiff.1 hbranch)]
    refine congrArg _ ?_
    split
    · rw [breaches_cons, breaches_cons]
      refine congrArg _ ((List.append_nil _).trans ?_)
      rcases ho : (M.topology.vertex v).outgoing with _ | ⟨t, _ | ⟨u, ts⟩⟩ <;>
        simp [Rule.check, Rule.told, ho, breach]
    · rfl

theorem breaches_vertex (v : VertexId) :
    M.breaches (M.rulesAt (.inl (.vertex v))) = M.vertexViolations v := by
  unfold rulesAt vertexViolations
  dsimp only
  have hstate : M.breaches [.oneDefault v] = M.stateViolations v :=
    (breaches_cons _ _).trans (List.append_nil _)
  cases M.topology.kind v with
  | pseudo kind => exact breaches_pseudo v kind
  | finalState =>
    dsimp only
    rw [← List.singleton_append, breaches_append, hstate]
    refine congrArg _ ?_
    simp only [breaches_cons, ← List.append_assoc]
    exact List.append_nil _
  | state | machine => exact hstate

theorem breaches_transition (t : TransitionId) :
    M.breaches (M.rulesAt (.inr t)) = M.transitionViolations t := by
  unfold rulesAt transitionViolations
  dsimp only
  split
  · rw [breaches_cons]
    exact List.append_nil _
  · rfl

theorem violations_eq_broken :
    M.violations = M.broken.map (·.told M) ++ M.nameViolations := by
  show _ = M.breaches M.rules ++ _
  unfold rules spots violations
  rw [breaches_flatMap]
  simp only [List.flatMap_append, List.flatMap_map, Function.comp_apply, breaches_region,
    breaches_vertex, breaches_transition]

theorem mem_broken (hM : M.topology.WellFormed) (hlinks : M.topology.Linked) {i : Rule} :
    i ∈ M.broken ↔ i.Applies M ∧ ¬i.Holds M := by
  unfold broken
  rw [List.mem_filter, mem_rules, ← i.check_iff hM hlinks, Bool.not_eq_true', Bool.not_eq_true]

end Machine

namespace Topology

/-- The vertices and regions that are in the model. -/
def elements (T : Topology) : List Element :=
  T.vertices.map .vertex ++ T.regions.map .region

variable {T : Topology}

theorem mem_elements {e : Element} : e ∈ T.elements ↔ T.Listed e := by
  unfold elements
  cases e <;> simp [Listed]

theorem WellFormed.nodup_elements (hT : T.WellFormed) : T.elements.Nodup := by
  have hvertices := hT.nodup_all_vertices.map (f := Element.vertex) fun _ _ => Element.vertex.inj
  have hregions := hT.nodup_all_regions.map (f := Element.region) fun _ _ => Element.region.inj
  exact List.nodup_append'.2 ⟨hvertices, hregions, by simp [List.disjoint_left]⟩

end Topology

namespace Machine

variable {M : Machine σ}

/-- No name is repeated if each is the name of one element. -/
theorem nameViolations_eq_nil_iff (hM : M.topology.WellFormed) : M.nameViolations = [] ↔
    ∀ e a, M.topology.Listed e → M.topology.Listed a →
      M.topology.qualifiedName e = M.topology.qualifiedName a → e = a := by
  have hcount := fun name => count_repeatedNames name
    (M.topology.elements.map M.topology.qualifiedName) []
  have hnodup : M.nameViolations = [] ↔
      (M.topology.elements.map M.topology.qualifiedName).Nodup := by
    show (repeatedNames [] (M.topology.elements.map M.topology.qualifiedName)).map _ = [] ↔ _
    rw [List.map_eq_nil_iff, List.nodup_iff_count_le_one]
    simp only [List.not_mem_nil, if_false] at hcount
    constructor
    · intro hnil name
      have h := hcount name
      rw [hnil, List.count_nil] at h
      omega
    · intro h
      refine List.eq_nil_iff_forall_not_mem.2 fun name hname => ?_
      have hpos := List.count_pos_iff.2 hname
      have hle := h name
      rw [hcount name] at hpos
      omega
  rw [hnodup, List.nodup_map_iff_inj_on hM.nodup_elements]
  simp only [Topology.mem_elements]
  exact ⟨fun h e a he ha => h e he a ha, fun h e he a ha => h e a he ha⟩

/-- Validation finds nothing just if every rule holds wherever it applies and no two elements have
one name. What it finds is each rule that does not hold, once, and then each name as often as it is
repeated; all of it is logged in this order, each breach at its level, and the model stays as it
is. -/
theorem Reachable.validated (hM : M.Reachable fun _ => True) :
    (M.violations = [] ↔ (∀ i : Rule, i.Applies M → i.Holds M) ∧
      ∀ e a, M.topology.Listed e → M.topology.Listed a →
        M.topology.qualifiedName e = M.topology.qualifiedName a → e = a) ∧
    (∃ (broken : List Rule) (names : List String) (elements : List Element),
      M.violations = broken.map (·.told M) ++ names.map .duplicateQualifiedName ∧
      broken.Nodup ∧ (∀ i, i ∈ broken ↔ i.Applies M ∧ ¬i.Holds M) ∧
      elements.Nodup ∧ (∀ e, e ∈ elements ↔ M.topology.Listed e) ∧
      (∀ name, names.count name = (elements.map M.topology.qualifiedName).count name - 1) ∧
      names.length =
        elements.length - (elements.map M.topology.qualifiedName).toFinset.card) ∧
    M.validationMessages = M.violations.map (fun v => (v.severity.level, v.message)) ∧
    M.ask .validate = (.violations M.violations, M) := by
  have hT := hM.wellFormed
  have hbroken := fun i => mem_broken hT hM.linked (i := i)
  refine ⟨?_, ⟨M.broken, repeatedNames [] (M.topology.elements.map M.topology.qualifiedName),
    M.topology.elements, violations_eq_broken, (nodup_rules hT hM.linked).filter _, hbroken,
    hT.nodup_elements, fun _ => Topology.mem_elements, fun name => ?_, ?_⟩, rfl, rfl⟩
  · rw [violations_eq_broken, List.append_eq_nil_iff, List.map_eq_nil_iff,
      nameViolations_eq_nil_iff hT, List.eq_nil_iff_forall_not_mem]
    simp only [hbroken, not_and, not_not]
  · rw [count_repeatedNames, if_neg List.not_mem_nil]
  · have hlength := length_repeatedNames (M.topology.elements.map M.topology.qualifiedName) []
    rw [List.toFinset_nil, Finset.sdiff_empty, List.length_map] at hlength
    omega

/-- Two initial pseudostates of one name, and a final state with a way out. -/
def untidy : Machine Unit := .build "m" {} [
  .addVertex "i" (.state ⟨0⟩) (.pseudo .initial), .addVertex "i" (.state ⟨0⟩) (.pseudo .initial),
  .addVertex "end" (.state ⟨0⟩) .finalState, .addTransition ⟨3⟩ (some ⟨3⟩)]

theorem untidy_validated : untidy.Reachable (fun _ => True) ∧
    untidy.violations = [.duplicatePseudoState "m.default" .initial,
      .finalStateWithTransitions "m.default.end", .duplicateQualifiedName "m.default.i"] ∧
    ¬((∀ i : Rule, i.Applies untidy → i.Holds untidy) ∧
      ∀ e a, untidy.topology.Listed e → untidy.topology.Listed a →
        untidy.topology.qualifiedName e = untidy.topology.qualifiedName a → e = a) ∧
    untidy.ask .validate = (.violations untidy.violations, untidy) := by
  have hM : untidy.Reachable fun _ => True := .build (by decide +kernel) fun _ _ => trivial
  have hfound : untidy.violations = [.duplicatePseudoState "m.default" .initial,
    .finalStateWithTransitions "m.default.end", .duplicateQualifiedName "m.default.i"] := by
    decide +kernel
  obtain ⟨hiff, -, -, hask⟩ := hM.validated
  refine ⟨hM, hfound, fun h => ?_, hask⟩
  have hnil := hiff.2 h
  rw [hfound] at hnil
  cases hnil

/-- A choice that leads nowhere is put into a region that was removed. -/
def overlooked : Machine Unit := .build "m" {} [
  .addVertex "a" (.state ⟨0⟩) .state, .addRegion "p" ⟨1⟩, .removeRegion ⟨1⟩,
  .addVertex "x" (.region ⟨1⟩) (.pseudo .choice)]

/-- The choice bears no mark of removal, but it is not in the model, and nothing is found. -/
theorem overlooked_passes : overlooked.Reachable (fun _ => True) ∧
    ¬(overlooked.violations = [] → ∀ v, overlooked.topology.Present (.vertex v) →
      overlooked.topology.kind v = .pseudo .choice →
        (overlooked.topology.vertex v).outgoing ≠ []) := by
  refine ⟨.build (by decide +kernel) fun _ _ => trivial, fun h => ?_⟩
  have hpresent : overlooked.topology.Present (.vertex ⟨2⟩) := by
    unfold Topology.Present
    decide +kernel
  exact h (by decide +kernel) ⟨2⟩ hpresent (by decide +kernel) (by decide +kernel)

end Machine

end Hsm
