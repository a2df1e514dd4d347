import Hsm.Engine.Evaluate

/-!
# The depth of an evaluation

A run that comes to an end with one depth does the same with any greater depth
(`engine_refines`), so the depth is no part of what an evaluation means. One run refines another
if it agrees with it wherever it is not exhausted; the operations of a layer keep this relation
between the layers below.
-/

namespace Hsm

variable {σ ι : Type}

namespace Run

variable {α β : Type}

/-- `y` does what `x` does, except where `x` is exhausted. -/
def Refines (x y : Run σ ι α) : Prop :=
  ∀ s, (x s).1 ≠ .exhausted → y s = x s

namespace Refines

theorem refl (x : Run σ ι α) : x.Refines x :=
  fun _ _ => rfl

theorem trans {x y z : Run σ ι α} (hxy : x.Refines y) (hyz : y.Refines z) : x.Refines z :=
  fun s h => by rw [hyz s (by rwa [hxy s h]), hxy s h]

theorem exhausted (y : Run σ ι α) : Run.exhausted.Refines y :=
  fun _ h => absurd rfl h

theorem bind {x y : Run σ ι α} {f g : α → Run σ ι β} (h : x.Refines y)
    (hfg : ∀ a, (f a).Refines (g a)) : (x >>= f).Refines (y >>= g) := by
  intro s hs
  simp only [Bind.bind] at hs ⊢
  rcases hx : x s with ⟨r, s'⟩
  rw [hx] at hs
  cases r with
  | value a => rw [h s (by simp [hx]), hx]; exact hfg a s' hs
  | failed e => rw [h s (by simp [hx]), hx]
  | exhausted => exact absurd rfl hs

theorem bind_right (x : Run σ ι α) {f g : α → Run σ ι β} (hfg : ∀ a, (f a).Refines (g a)) :
    (x >>= f).Refines (x >>= g) :=
  (refl x).bind hfg

theorem discard {x y : Run σ ι α} (h : x.Refines y) :
    (Functor.discard x).Refines (Functor.discard y) :=
  h.bind fun _ => refl _

theorem ite {c : Prop} [Decidable c] {x y x' y' : Run σ ι α} (h : x.Refines y)
    (h' : x'.Refines y') : (if c then x else x').Refines (if c then y else y') := by
  split
  · exact h
  · exact h'

end Refines

end Run

variable [Instance ι]

/-- Each operation of `f` does what that of `e` does, except where that one is exhausted. -/
structure Engine.Refines (e f : Engine σ ι) : Prop where
  perform : ∀ step trigger deep, (e.perform step trigger deep).Refines (f.perform step trigger deep)
  offer : ∀ v trigger, (e.offer v trigger).Refines (f.offer v trigger)
  fire : ∀ t trigger, (e.fire t trigger).Refines (f.fire t trigger)
  legs : ∀ t trigger, (e.legs t trigger).Refines (f.legs t trigger)

namespace Engine.Refines

open Run Engine

variable {M : Machine σ} {P : Program σ} {e f : Engine σ ι} (h : e.Refines f)

include h

omit [Instance ι] in
theorem performAll (trigger : Trigger) (deep : Bool) :
    ∀ steps, (e.performAll trigger deep steps).Refines (f.performAll trigger deep steps)
  | [] => .refl _
  | _ :: rest => (h.perform _ _ _).bind fun _ => performAll trigger deep rest

theorem legsFrom (t : TransitionId) (trigger : Trigger) :
    (legsFrom M e t trigger).Refines (legsFrom M f t trigger) := by
  unfold Engine.legsFrom
  split
  · exact .ite (.bind_right _ fun _ => (h.legs _ _).bind fun _ => .refl _) (.refl _)
  · exact .refl _

omit [Instance ι] in
theorem enterElement (x : Element) (trigger : Trigger) (deep : Bool) :
    (enterElement P e x trigger deep).Refines (enterElement P f x trigger deep) :=
  (h.performAll _ _ _).bind fun _ => h.performAll _ _ _

theorem leaveCurrent (r : RegionId) (trigger : Trigger) :
    (leaveCurrent M P e r trigger).Refines (leaveCurrent M P f r trigger) := by
  refine .bind_right _ fun v => ?_
  cases v with
  | none => exact .refl _
  | some v => exact h.performAll _ _ _

theorem enterRegion (r : RegionId) (initial : Option VertexId) (trigger : Trigger) (deep : Bool) :
    (enterRegion M P e r initial trigger deep).Refines
      (enterRegion M P f r initial trigger deep) := by
  refine .bind_right _ fun _ => ?_
  split
  · exact h.enterElement _ _ _
  · exact .refl _

theorem resume (v : VertexId) (trigger : Trigger) (deep : Bool) :
    (resume M P e v trigger deep).Refines (resume M P f v trigger deep) := by
  refine .bind_right _ fun state => ?_
  split
  · exact (h.performAll _ _ _).bind fun _ => h.enterElement _ _ _
  · split
    · exact (h.fire _ _).discard
    · exact .refl _

theorem traverseWithin (t : TransitionId) (trigger : Trigger) :
    (traverseWithin M P e t trigger).Refines (traverseWithin M P f t trigger) := by
  unfold Engine.traverseWithin
  dsimp only
  split
  · exact .refl _
  · refine .bind_right _ fun _ => ?_
    split
    · exact .refl _
    · exact (h.leaveCurrent _ _).bind fun _ => .bind_right _ fun _ =>
        (h.performAll _ _ _).bind fun _ => h.performAll _ _ _

theorem offerCompletion (v : VertexId) :
    (offerCompletion M e v).Refines (offerCompletion M f v) :=
  .bind_right _ fun _ => .ite (h.offer _ _).discard (.refl _)

theorem performStep (step : Step σ) (trigger : Trigger) (deep : Bool) :
    (performStep M P e step trigger deep).Refines (performStep M P f step trigger deep) := by
  cases step with
  | leaveActive r => exact h.leaveCurrent _ _
  | enterRegion r initial => exact h.enterRegion _ _ _ _
  | resume v => exact h.resume _ _ _
  | completeInternal v => exact .ite (h.offerCompletion _) (.refl _)
  | traverseWithin t => exact h.traverseWithin _ _
  | enter _ | leave _ | setCurrent _ _ | behavior _ | terminate => exact .refl _

theorem offerRegions (state : VertexId) (trigger : Trigger) :
    ∀ rs, (offerRegions M e state trigger rs).Refines (offerRegions M f state trigger rs)
  | [] => .refl _
  | _ :: rest => by
    refine .bind_right _ fun v => ?_
    cases v with
    | none => exact offerRegions state trigger rest
    | some v =>
      exact (h.offer _ _).bind fun _ => .ite
        (.bind_right _ fun _ => .ite
          ((offerRegions state trigger rest).bind fun _ => .refl _) (.refl _))
        (offerRegions state trigger rest)

omit [Instance ι] in
theorem takeOnly (state : VertexId) (trigger : Trigger) :
    ∀ ts, (takeOnly M e state trigger ts).Refines (takeOnly M f state trigger ts)
  | [] => .refl _
  | [_] => .bind_right _ fun _ => h.fire _ _
  | _ :: _ :: _ => .refl _

theorem offerState (state : VertexId) (trigger : Trigger) :
    (offerState M e state trigger).Refines (offerState M f state trigger) :=
  .bind_right _ fun _ => (Run.Refines.ite (.refl _) (h.offerRegions _ _ _)).bind fun _ => .ite
    ((h.offerCompletion _).bind fun _ => .refl _) (.bind_right _ fun _ => h.takeOnly _ _ _)

omit [Instance ι] in
theorem traverseAll (trigger : Trigger) :
    ∀ ts, (traverseAll P e trigger ts).Refines (traverseAll P f trigger ts)
  | [] => .refl _
  | _ :: rest => .bind_right _ fun _ => (h.performAll _ _ _).bind fun _ => traverseAll trigger rest

theorem leadOn (trigger : Trigger) (target : VertexId) :
    (leadOn M e trigger target).Refines (leadOn M f trigger target) :=
  .ite (.bind_right _ fun _ => (h.fire _ _).discard) (.ite (h.offerCompletion _) (.refl _))

theorem fireTransition (t : TransitionId) (trigger : Trigger) :
    (fireTransition M P e t trigger).Refines (fireTransition M P f t trigger) := by
  refine (h.legs _ _).bind fun _ => (h.traverseAll _ _).bind fun _ => ?_
  split
  · exact .refl _
  · exact (h.leadOn _ _).bind fun _ => .refl _

end Engine.Refines

theorem engine_succ_refines (M : Machine σ) (P : Program σ) :
    ∀ n, (engine (ι := ι) M P n).Refines (engine M P (n + 1))
  | 0 => ⟨fun _ _ _ => .exhausted _, fun _ _ => .exhausted _, fun _ _ => .exhausted _,
      fun _ _ => .exhausted _⟩
  | n + 1 =>
    have h := engine_succ_refines M P n
    ⟨h.performStep, h.offerState, h.fireTransition, h.legsFrom⟩

/-- A greater depth changes nothing where a smaller one suffices. -/
theorem engine_refines (M : Machine σ) (P : Program σ) {n m : Nat} (hnm : n ≤ m) :
    (engine (ι := ι) M P n).Refines (engine M P m) := by
  induction hnm with
  | refl => exact ⟨fun _ _ _ => .refl _, fun _ _ => .refl _, fun _ _ => .refl _, fun _ _ => .refl _⟩
  | @step k _ ih =>
    have h := engine_succ_refines (ι := ι) M P k
    exact ⟨fun _ _ _ => (ih.perform _ _ _).trans (h.perform _ _ _),
      fun _ _ => (ih.offer _ _).trans (h.offer _ _), fun _ _ => (ih.fire _ _).trans (h.fire _ _),
      fun _ _ => (ih.legs _ _).trans (h.legs _ _)⟩

end Hsm
