import FlowLang.Proofs.LoweringGrowth

/-!
# The faults of lowering

`Tree.survey` goes through a tree as lowering does, but builds no graph: it computes types, the
kinds of the variables, and faults.

* `Tree.lowerNode_tracks`: from an open insertion point, lowering and survey come out alike, with
  the same fault or with a value of the type that the survey gives, and with the same faults
  recorded.
* `Tree.lower_result`: so a tree is lowered to a module iff its survey finds nothing, and otherwise
  the faults of lowering are those of the survey, in their order.
-/

namespace FlowLang

/-- The kinds of the variables declared so far. -/
abbrev Context := String → Option Kind

namespace Context

def empty : Context := fun _ => none

/-- A variable gets a kind, instead of an earlier one if there is one. -/
def declare (Γ : Context) (x : String) (kind : Kind) : Context :=
  fun y => if y = x then some kind else Γ y

end Context

/-- The kinds of the variables and the faults so far. -/
structure Findings where
  kinds : Context
  faults : List LoweringFault

/-- A step of a survey. -/
abbrev Survey := EStateM LoweringFault Findings

namespace Survey

/-- Records the fault of a step, and goes on. -/
def attempt {α : Type} (step : Survey α) : Survey (Option α) := fun σ =>
  match step σ with
  | .ok a σ => .ok (some a) σ
  | .error e σ => .ok none { σ with faults := σ.faults ++ [e] }

/-- The type of a tree that has to have a value. -/
def valueOf (t : Tree) (step : Survey (Option Ty)) : Survey Ty := do
  match ← step with
  | some ty => return ty
  | none => throw (.noValue t.node.label)

/-- The kind of a declared variable. -/
def kindOf (x : String) : Survey Kind := fun σ =>
  match σ.kinds x with
  | some kind => .ok kind σ
  | none => .error (.undeclared x) σ

/-- Refuses an operand of the wrong type. -/
def require (use : Use) (found expected : Ty) : Survey Unit :=
  if found = expected then return () else throw (.graph (.typeMismatch use expected found))

def store (x : String) (ty : Ty) : Survey Unit := do
  let kind ← kindOf x
  require .store ty (Lower.typeOf kind)

def print (ty : Ty) : Survey Unit :=
  if ty = .truth then throw (.unprintable .truth) else return ()

def binary (op : Binary) (lhs rhs : Ty) : Survey Ty := do
  require op.use lhs op.operand
  require op.use rhs op.operand
  return op.result

def negate (ty : Ty) : Survey Ty := do
  require .negation ty .truth
  return .truth

def condition (test : Survey Ty) : Survey Unit := do
  let ty ← test
  require .branch ty .truth

end Survey

namespace Tree

section

open Survey

mutual

/-- The type of a tree if it has a value, or its fault. -/
def survey : Tree → Survey (Option Ty)
  | mk .program ts => surveyAll none ts
  | mk .block ts => surveyAll none ts
  | mk (.name x) [] => do return some (Lower.typeOf (← kindOf x))
  | mk (.real _) [] => return some .number
  | mk (.integer _) [] => return some .number
  | mk (.text _) [] => return some .pointer
  | mk (.declare x kind) [] => do
    modify fun σ => { σ with kinds := σ.kinds.declare x kind }
    return none
  | mk (.assign x) [e] => do
    let ty ← valueOf e (survey e)
    store x ty
    return none
  | mk .print [e] => do
    let ty ← valueOf e (survey e)
    print ty
    return none
  | mk (.arithmetic op) [l, r] => do
    let lhs ← valueOf l (survey l)
    let rhs ← valueOf r (survey r)
    return some (← binary (.arithmetic op) lhs rhs)
  | mk (.increment x) [e] => do
    let ty ← valueOf e (survey e)
    let next ← binary (.arithmetic .add) ty .number
    store x next
    return none
  | mk (.decrement x) [e] => do
    let ty ← valueOf e (survey e)
    let next ← binary (.arithmetic .sub) ty .number
    store x next
    return none
  | mk .loop [c, b] => do
    let _ ← attempt (condition (valueOf c (survey c)))
    let _ ← attempt (survey b)
    return none
  | mk .condition [c, b] => do
    let _ ← attempt (condition (valueOf c (survey c)))
    let _ ← attempt (survey b)
    return none
  | mk .choice [c, b, e] => do
    let _ ← attempt (condition (valueOf c (survey c)))
    let _ ← attempt (survey b)
    let _ ← attempt (survey e)
    return none
  | mk (.compare op) [l, r] => do
    let lhs ← valueOf l (survey l)
    let rhs ← valueOf r (survey r)
    return some (← binary (.compare op) lhs rhs)
  | mk (.connect op) [l, r] => do
    let lhs ← valueOf l (survey l)
    let rhs ← valueOf r (survey r)
    return some (← binary (.connect op) lhs rhs)
  | mk .negate [e] => do
    let ty ← valueOf e (survey e)
    return some (← negate ty)
  | mk n ts => throw (.arity n.label (n.arity?.getD 0) ts.length)

/-- Surveys trees one after the other, recording their faults. The type is that of the last one. -/
def surveyAll (last : Option Ty) : List Tree → Survey (Option Ty)
  | [] => return last
  | t :: ts => do
    let ty ← attempt (survey t)
    surveyAll ty.join ts

end

/-- The faults of a tree. -/
def findings (t : Tree) : List LoweringFault := (after (attempt t.survey ⟨.empty, []⟩)).faults

theorem survey_literal (l : Literal) : (mk l.node []).survey = return some .number := by
  cases l <;> exact survey.eq_def _

theorem survey_first (kind : Kind) :
    valueOf kind.first kind.first.survey = return Lower.typeOf kind := by
  cases kind with
  | number => unfold Kind.first; rw [survey]; rfl
  | text => unfold Kind.first; rw [survey]; rfl

theorem survey_binary (op : Binary) (l r : Tree) : (mk op.node [l, r]).survey = do
    let lhs ← valueOf l l.survey
    let rhs ← valueOf r r.survey
    return some (← binary op lhs rhs) := by
  cases op <;> exact survey.eq_def _

theorem survey_step (k : Step) (x : String) (e : Tree) :
    (mk (k.node x) [e]).survey = (stepped k x e).survey := by
  unfold stepped
  cases k with
  | up =>
    show (mk (.increment x) [e]).survey = _
    rw [survey, survey, survey, survey]
    unfold valueOf
    simp only [bind_assoc, pure_bind]
    rfl
  | down =>
    show (mk (.decrement x) [e]).survey = _
    rw [survey, survey, survey, survey]
    unfold valueOf
    simp only [bind_assoc, pure_bind]
    rfl

theorem survey_guarded (g : Guard) (c b : Tree) : (mk g.node [c, b]).survey = do
    let _ ← attempt (condition (valueOf c c.survey))
    let _ ← attempt b.survey
    return none := by
  cases g <;> exact survey.eq_def _

theorem survey_irregular {n : Node} {ts : List Tree} {k : Nat} (hk : n.arity? = some k)
    (hl : ts.length ≠ k) : (mk n ts).survey = throw (.arity n.label k ts.length) := by
  rw [survey]
  · rw [hk]
    rfl
  -- every other equation is for a number of children that the node expects
  all_goals
    intros
    subst_vars
    first
    | exact hl (Option.some.inj hk)
    | cases hk

end

end Tree

/-! ## Recorded faults -/

namespace Survey

variable {α β : Type}

/-- No recorded fault is lost. -/
def Keeps (step : Survey α) : Prop := ∀ σ, σ.faults <+: (after (step σ)).faults

theorem Keeps.bind {x : Survey α} {f : α → Survey β} (hx : Keeps x) (hf : ∀ a, Keeps (f a)) :
    Keeps (x >>= f) := by
  intro σ
  have h := hx σ
  rw [bind_apply]
  cases hs : x σ with
  | error e σ₁ => rwa [hs] at h
  | ok a σ₁ => rw [hs] at h; exact h.trans (hf a σ₁)

theorem keeps_pure (a : α) : Keeps (pure a) := fun _ => List.prefix_refl _

theorem keeps_throw (e : LoweringFault) : Keeps (throw e : Survey α) := fun _ => List.prefix_refl _

theorem keeps_attempt {step : Survey α} (h : Keeps step) : Keeps (attempt step) := by
  intro σ
  have h₁ := h σ
  unfold attempt
  cases hs : step σ with
  | ok a σ₁ => rwa [hs] at h₁
  | error e σ₁ => rw [hs] at h₁; exact h₁.trans (List.prefix_append _ _)

theorem keeps_valueOf (t : Tree) {step : Survey (Option Ty)} (h : Keeps step) :
    Keeps (valueOf t step) :=
  h.bind fun ty => by
    cases ty with
    | none => exact keeps_throw _
    | some ty => exact keeps_pure ty

theorem keeps_kindOf (x : String) : Keeps (kindOf x) := by
  intro σ
  unfold kindOf
  cases σ.kinds x <;> exact List.prefix_refl _

theorem keeps_require (use : Use) (found expected : Ty) : Keeps (require use found expected) := by
  unfold require
  split
  · exact keeps_pure ()
  · exact keeps_throw _

theorem keeps_store (x : String) (ty : Ty) : Keeps (store x ty) :=
  (keeps_kindOf x).bind fun _ => keeps_require _ _ _

theorem keeps_print (ty : Ty) : Keeps (print ty) := by
  unfold print
  split
  · exact keeps_throw _
  · exact keeps_pure ()

theorem keeps_binary (op : Binary) (lhs rhs : Ty) : Keeps (binary op lhs rhs) :=
  (keeps_require _ _ _).bind fun _ => (keeps_require _ _ _).bind fun _ => keeps_pure _

theorem keeps_negate (ty : Ty) : Keeps (negate ty) :=
  (keeps_require _ _ _).bind fun _ => keeps_pure _

theorem keeps_condition {test : Survey Ty} (h : Keeps test) : Keeps (condition test) :=
  h.bind fun _ => keeps_require _ _ _

/-- A step that was tried and recorded nothing has succeeded. -/
theorem attempt_faultless {step : Survey α} (hk : Keeps step) {σ σ' : Findings} {r : Option α}
    (h : attempt step σ = .ok r σ') (hf : σ'.faults = σ.faults) : ∃ a, step σ = .ok a σ' := by
  have hl := hk σ
  unfold attempt at h
  cases hs : step σ with
  | ok a σ₁ =>
    rw [hs] at h
    cases h
    exact ⟨a, rfl⟩
  | error e σ₁ =>
    rw [hs] at h hl
    cases h
    have hlen := hl.length_le
    rw [← hf, List.length_append, List.length_singleton] at hlen
    exact absurd hlen (by show ¬ σ₁.faults.length + 1 ≤ σ₁.faults.length; omega)

/-- If two steps record nothing together, then neither does the first. -/
theorem faults_eq {x : Survey α} (hx : Keeps x) {y : Survey β} (hy : Keeps y) {σ σ₁ σ₂ : Findings}
    {a : α} {b : β} (h₁ : x σ = .ok a σ₁) (h₂ : y σ₁ = .ok b σ₂) (hf : σ₂.faults = σ.faults) :
    σ₁.faults = σ.faults := by
  have hl₁ := hx σ
  have hl₂ := hy σ₁
  rw [h₁] at hl₁
  rw [h₂] at hl₂
  have hlen := hl₂.length_le
  exact (hl₁.eq_of_length_le (hf ▸ hlen)).symm

end Survey

namespace Tree

open Survey

theorem keeps_surveyAll {ts : List Tree} (h : ∀ t ∈ ts, Keeps t.survey) (last : Option Ty) :
    Keeps (surveyAll last ts) := by
  induction ts generalizing last with
  | nil => rw [surveyAll]; exact keeps_pure last
  | cons t ts ih =>
    rw [surveyAll]
    exact (keeps_attempt (h t List.mem_cons_self)).bind fun ty =>
      ih (fun u hu => h u (List.mem_cons_of_mem t hu)) ty.join

/-- The survey of a tree loses no fault that was recorded before. -/
theorem survey_keeps (t : Tree) : Keeps t.survey := by
  induction t using form_induct with
  | program ts ih => rw [survey]; exact keeps_surveyAll ih none
  | block ts ih => rw [survey]; exact keeps_surveyAll ih none
  | name x => rw [survey]; exact (keeps_kindOf x).bind fun _ => keeps_pure _
  | literal l => rw [survey_literal]; exact keeps_pure _
  | text s => rw [survey]; exact keeps_pure _
  | declare x kind _ => rw [survey]; exact fun _ => List.prefix_refl _
  | assign x e ih =>
    rw [survey]
    exact (keeps_valueOf e ih).bind fun ty => (keeps_store x ty).bind fun _ => keeps_pure _
  | step k x e ih => rw [survey_step]; exact ih
  | print e ih =>
    rw [survey]
    exact (keeps_valueOf e ih).bind fun ty => (keeps_print ty).bind fun _ => keeps_pure _
  | binary op l r ihl ihr =>
    rw [survey_binary]
    exact (keeps_valueOf l ihl).bind fun lhs => (keeps_valueOf r ihr).bind fun rhs =>
      (keeps_binary op lhs rhs).bind fun _ => keeps_pure _
  | negate e ih =>
    rw [survey]
    exact (keeps_valueOf e ih).bind fun ty => (keeps_negate ty).bind fun _ => keeps_pure _
  | guarded g c body ihc ihb =>
    rw [survey_guarded]
    exact (keeps_attempt (keeps_condition (keeps_valueOf c ihc))).bind fun _ =>
      (keeps_attempt ihb).bind fun _ => keeps_pure _
  | choice c yes no ihc ihy ihn =>
    rw [survey]
    exact (keeps_attempt (keeps_condition (keeps_valueOf c ihc))).bind fun _ =>
      (keeps_attempt ihy).bind fun _ => (keeps_attempt ihn).bind fun _ => keeps_pure _
  | irregular n ts k hk hl => rw [survey_irregular hk hl]; exact keeps_throw _

end Tree

/-! ## Tracking -/

/-- The survey has found the faults of the lowering, and knows the kinds of its variables. -/
structure Lowering.Mirrors (s : Lowering) (σ : Findings) : Prop where
  faults : s.faults = σ.faults
  kinds : ∀ x, (s.scope.lookup? x).map (·.kind) = σ.kinds x

namespace Lower

variable {α β γ δ : Type}

/-- A lowering and a survey have come out alike. -/
inductive Alike (R : α → β → Prop) :
    EStateM.Result LoweringFault Lowering α → EStateM.Result LoweringFault Findings β → Prop
  | ok {a : α} {b : β} {s : Lowering} {σ : Findings} (h : R a b) (hs : s.Mirrors σ) :
      Alike R (.ok a s) (.ok b σ)
  | error {e : LoweringFault} {s : Lowering} {σ : Findings} (hs : s.Mirrors σ) :
      Alike R (.error e s) (.error e σ)

/-- From an open insertion point, the two steps come out alike. -/
def Tracks (R : α → β → Prop) (x : Lower Nat α) (y : Survey β) : Prop :=
  ∀ (s : Lowering) (σ : Findings) (i : Nat), s.builder.OpenAt i → s.ScopeFits → s.Mirrors σ →
    Alike R (x s) (y σ)

/-- The value has the type. -/
def OfType (v : Value) (ty : Ty) : Prop := v.ty = ty

variable {R : α → β → Prop} {Q : γ → δ → Prop} {x : Lower Nat α} {y : Survey β}

theorem Tracks.bind (hk : Keeps x) (h : Tracks R x y) {f : α → Lower Nat γ} {g : β → Survey δ}
    (hf : ∀ a b, R a b → Tracks Q (f a) (g b)) : Tracks Q (x >>= f) (y >>= g) := by
  intro s σ i hi hs hm
  have hl := hk s i hi
  have ha := h s σ i hi hs hm
  rw [bind_apply, bind_apply]
  generalize x s = r at hl ha
  generalize y σ = r' at ha
  cases ha with
  | error hm' => exact .error hm'
  | ok hR hm' =>
    obtain ⟨i', hi', -⟩ := hl.framed i hi
    exact hf _ _ hR _ _ i' hi' (hl.scope hs) hm'

/-- A step of lowering that the survey skips. -/
theorem Tracks.skip (hk : Keeps x) {c : β} (h : Tracks R x (pure c)) {f : α → Lower Nat γ}
    {g : Survey δ} (hf : ∀ a, R a c → Tracks Q (f a) g) : Tracks Q (x >>= f) g := by
  intro s σ i hi hs hm
  have hl := hk s i hi
  have ha := h s σ i hi hs hm
  rw [bind_apply]
  generalize x s = r at hl ha
  cases ha with
  | ok hR hm' =>
    obtain ⟨i', hi', -⟩ := hl.framed i hi
    exact hf _ hR _ _ i' hi' (hl.scope hs) hm'

theorem tracks_pure {a : α} {b : β} (h : R a b) : Tracks R (pure a) (pure b) :=
  fun _ _ _ _ _ hm => .ok h hm

theorem tracks_throw (e : LoweringFault) : Tracks R (throw e) (throw e) :=
  fun _ _ _ _ _ hm => .error hm

theorem tracks_attempt (h : Tracks R x y) :
    Tracks (Option.Rel R) (attempt x) (Survey.attempt y) := by
  intro s σ i hi hs hm
  have ha := h s σ i hi hs hm
  unfold attempt Survey.attempt
  generalize x s = r at ha
  generalize y σ = r' at ha
  cases ha with
  | ok hR hm' => exact .ok (.some hR) hm'
  | error hm' => exact .ok .none ⟨congrArg (· ++ [_]) hm'.faults, hm'.kinds⟩

theorem tracks_valueOf (t : Tree) {x : Lower Nat (Option Value)} {y : Survey (Option Ty)}
    (hk : Keeps x) (h : Tracks (Option.Rel OfType) x y) :
    Tracks OfType (valueOf t x) (Survey.valueOf t y) :=
  Tracks.bind hk h fun a b hab => by
    cases hab with
    | some hv => exact tracks_pure hv
    | none => exact tracks_throw _

/-! ### Steps of building -/

theorem build_bind (step : Build Nat α) (f : α → Build Nat γ) :
    build (step >>= f) = build step >>= fun a => build (f a) := by
  funext s
  rw [bind_apply]
  unfold build
  rw [bind_apply]
  cases step s.builder <;> rfl

/-- A step that always succeeds at an open block. -/
theorem tracks_build {step : Build Nat α} {c : β}
    (h : ∀ b i, b.OpenAt i → ∃ a b', step b = .ok a b' ∧ R a c) :
    Tracks R (build step) (pure c) := by
  intro s σ i hi _ hm
  obtain ⟨a, b', he, hR⟩ := h s.builder i hi
  unfold build
  rw [he]
  exact .ok hR ⟨hm.faults, hm.kinds⟩

theorem tracks_define (ty : Ty) (f : Value → Instr) :
    Tracks OfType (build (.define ty f)) (pure ty) :=
  tracks_build fun b i hi =>
    ⟨⟨b.nextValue, ty⟩, _, Build.define_eq_ok.mpr ⟨rfl, rfl, i, hi, rfl⟩, rfl⟩

theorem tracks_append (ins : Instr) : Tracks Eq (build (.append ins)) (pure ()) :=
  tracks_build fun _ i hi => ⟨(), _, Build.append_eq_ok.mpr ⟨i, hi, rfl⟩, rfl⟩

theorem tracks_require {v : Value} {ty : Ty} (use : Use) (expected : Ty) (hv : OfType v ty) :
    Tracks Eq (build (.require use v expected)) (Survey.require use ty expected) := by
  intro s σ i _ _ hm
  obtain rfl : v.ty = ty := hv
  unfold build Build.require Survey.require
  by_cases h : v.ty = expected
  · rw [if_pos h, if_pos h]; exact .ok rfl hm
  · rw [if_neg h, if_neg h]; exact .error hm

/-- What follows the look-up of a variable knows its type. -/
theorem tracks_slot (x : String) {f : Nat → Ty → Lower Nat γ} {g : Ty → Survey δ}
    (h : ∀ slot ty, Tracks Q (f slot ty) (g ty)) :
    Tracks Q (do
      let slot ← slotOf x
      let ty ← build (.slotType slot)
      f slot ty) (do
      let kind ← Survey.kindOf x
      g (typeOf kind)) := by
  intro s σ i hi hs hm
  have hk := hm.kinds x
  rw [bind_apply, bind_apply, slotOf_apply]
  unfold Survey.kindOf
  cases hx : s.scope.lookup? x with
  | none =>
    rw [hx] at hk
    rw [← hk]
    exact .error hm
  | some b =>
    rw [hx] at hk
    rw [← hk]
    dsimp only [Option.map_some]
    rw [bind_apply]
    unfold build
    rw [Build.slotType_apply, hs x b hx]
    exact h _ _ s σ i hi hs hm

theorem tracks_load (x : String) :
    Tracks OfType (load x) (typeOf <$> Survey.kindOf x) := by
  have he : load (N := Nat) x = (do
      let slot ← slotOf x
      let ty ← build (.slotType slot)
      build (.define ty (.load · slot))) := by
    unfold load Build.load
    simp only [build_bind]
  rw [he]
  exact tracks_slot x fun slot ty => tracks_define ty _

theorem tracks_store (x : String) {v : Value} {ty : Ty} (hv : OfType v ty) :
    Tracks Eq (store x v) (Survey.store x ty) := by
  have he : store (N := Nat) x v = (do
      let slot ← slotOf x
      let ty ← build (.slotType slot)
      build (.require .store v ty) >>= fun _ => build (.append (.store slot v))) := by
    unfold store Build.store
    simp only [build_bind]
  rw [he]
  refine tracks_slot x (g := Survey.require .store ty) fun slot expected => ?_
  rw [← bind_pure_unit (x := Survey.require .store ty expected)]
  exact (tracks_require .store expected hv).bind (keeps_require _ _ _) fun _ _ _ => tracks_append _

theorem tracks_call {callee : Printer} {v : Value} (hv : v.ty = callee.parameter) :
    Tracks Eq (build (.call callee v)) (pure ()) :=
  tracks_build fun _ i hi => ⟨(), _, Build.call_eq_ok.mpr ⟨hv, i, hi, rfl⟩, rfl⟩

theorem tracks_print {v : Value} {ty : Ty} (hv : OfType v ty) :
    Tracks Eq (print v) (Survey.print ty) := by
  obtain rfl : v.ty = ty := hv
  unfold print Survey.print
  cases hty : v.ty with
  | number => exact tracks_call hty
  | pointer => exact tracks_call hty
  | truth => exact tracks_throw _

theorem tracks_binary (op : Binary) {lhs rhs : Value} {l r : Ty} (hl : OfType lhs l)
    (hr : OfType rhs r) : Tracks OfType (build (op.build lhs rhs)) (Survey.binary op l r) := by
  unfold Binary.build Survey.binary
  simp only [build_bind]
  exact (tracks_require _ _ hl).bind (keeps_require _ _ _) fun _ _ _ =>
    (tracks_require _ _ hr).bind (keeps_require _ _ _) fun _ _ _ => tracks_define _ _

theorem tracks_negate {v : Value} {ty : Ty} (hv : OfType v ty) :
    Tracks OfType (build (.negate v)) (Survey.negate ty) := by
  unfold Build.negate Survey.negate
  simp only [build_bind]
  exact (tracks_require _ _ hv).bind (keeps_require _ _ _) fun _ _ _ => tracks_define _ _

theorem tracks_stringConstant (text : String) :
    Tracks OfType (stringConstant text) (pure .pointer) := by
  intro s σ i hi hs hm
  rw [stringConstant_apply]
  exact tracks_define .pointer _ _ σ i hi (fun x b hx => hs x b hx) ⟨hm.faults, hm.kinds⟩

theorem tracks_bindSlot (x : String) {kind : Kind} {v : Value} (hv : v.ty = typeOf kind) :
    Tracks (Option.Rel OfType) (do
      let slot ← build (.createSlot x (typeOf kind))
      build (.store slot v)
      modify fun s => { s with scope := s.scope.declare x ⟨slot, kind⟩ }
      return none) (do
      modify fun σ => { σ with kinds := σ.kinds.declare x kind }
      return none) := by
  intro s σ i hi hs hm
  -- the slot was made just now, so the value can be stored
  have hst : Build.store s.builder.graph.slots.length v (s.builder.addSlot ⟨x, typeOf kind⟩) =
      .ok () ((s.builder.addSlot ⟨x, typeOf kind⟩).push i
        (.store s.builder.graph.slots.length v)) :=
    Build.store_eq_ok.mpr ⟨_, List.getElem?_concat_length, hv, i, hi, rfl⟩
  have hb : build (.store s.builder.graph.slots.length v)
      { s with builder := s.builder.addSlot ⟨x, typeOf kind⟩ } =
      .ok () { s with
        builder := (s.builder.addSlot ⟨x, typeOf kind⟩).push i
          (.store s.builder.graph.slots.length v) } := by
    unfold build
    rw [hst]
  rw [bind_apply]
  show Alike _ ((build (.store s.builder.graph.slots.length v) >>= fun _ =>
    modify (fun r : Lowering => { r with
      scope := r.scope.declare x ⟨s.builder.graph.slots.length, kind⟩ }) >>= fun _ => pure none)
    { s with builder := s.builder.addSlot ⟨x, typeOf kind⟩ }) _
  rw [bind_apply, hb]
  refine .ok .none ⟨hm.faults, fun y => ?_⟩
  show ((s.scope.declare x _).lookup? y).map (·.kind) = if y = x then some kind else σ.kinds y
  rw [Scope.lookup?_declare]
  by_cases hy : y = x
  · rw [if_pos hy, if_pos hy]; rfl
  · rw [if_neg hy, if_neg hy]; exact hm.kinds y

/-- What is tried at an open insertion point is matched by the survey. -/
theorem Tracks.attempted (h : Tracks R x y) {s s' : Lowering} {σ : Findings} {i : Nat}
    {r : Option α} (hi : s.builder.OpenAt i) (hs : s.ScopeFits) (hm : s.Mirrors σ)
    (ha : attempt x s = .ok r s') : ∃ r' σ', Survey.attempt y σ = .ok r' σ' ∧ s'.Mirrors σ' := by
  have hal := tracks_attempt h s σ i hi hs hm
  rw [ha] at hal
  generalize Survey.attempt y σ = o at hal
  cases hal with
  | ok _ hm' => exact ⟨_, _, rfl, hm'⟩

end Lower

/-! ## Trees -/

namespace Tree

open Lower

theorem tracks_condition {c : Tree} (h : Tracks (Option.Rel OfType) c.lowerNode c.survey) :
    Tracks Eq (condition (valueOf c c.lowerNode)) (Survey.condition (Survey.valueOf c c.survey)) :=
  (tracks_valueOf c c.lowerNode_keeps h).bind (keeps_valueOf c c.lowerNode_keeps) fun _ _ hv =>
    tracks_require .branch .truth hv

theorem tracks_lowerAll {ts : List Tree}
    (h : ∀ t ∈ ts, Tracks (Option.Rel OfType) t.lowerNode t.survey) {last : Option Value}
    {last' : Option Ty} (hl : Option.Rel OfType last last') :
    Tracks (Option.Rel OfType) (lowerAll last ts) (surveyAll last' ts) := by
  induction ts generalizing last last' with
  | nil => rw [lowerAll, surveyAll]; exact tracks_pure hl
  | cons t ts ih =>
    rw [lowerAll, surveyAll]
    refine (tracks_attempt (h t List.mem_cons_self)).bind (keeps_attempt t.lowerNode_keeps)
      fun v ty hv => ih (fun u hu => h u (List.mem_cons_of_mem t hu)) ?_
    cases hv with
    | none => exact .none
    | some hv => exact hv

/-- **Lowering and survey come out alike**, for every tree. -/
theorem lowerNode_tracks (t : Tree) : Tracks (Option.Rel OfType) t.lowerNode t.survey := by
  induction t using form_induct with
  | program ts ih => rw [lowerNode, survey]; exact tracks_lowerAll ih .none
  | block ts ih => rw [lowerNode, survey]; exact tracks_lowerAll ih .none
  | name x =>
    rw [lowerNode, survey]
    have hs : (do return some (typeOf (← Survey.kindOf x)) : Survey (Option Ty)) =
        typeOf <$> Survey.kindOf x >>= fun ty => pure (some ty) := by
      simp only [map_eq_pure_bind, bind_assoc, pure_bind]
    rw [hs]
    exact (tracks_load x).bind (keeps_load x) fun _ _ hv => tracks_pure (.some hv)
  | literal l =>
    rw [lowerNode_literal, survey_literal]
    exact (tracks_define .number _).bind (keeps_define _ _) fun _ _ hv => tracks_pure (.some hv)
  | text s =>
    rw [lowerNode, survey]
    exact (tracks_stringConstant s).bind (keeps_stringConstant s) fun _ _ hv =>
      tracks_pure (.some hv)
  | declare x kind ih =>
    have hk := keeps_valueOf kind.first kind.first.lowerNode_keeps
    have hfirst := tracks_valueOf kind.first kind.first.lowerNode_keeps ih
    rw [survey_first] at hfirst
    rw [lowerNode_declare, survey]
    exact hfirst.skip hk fun v hv => tracks_bindSlot x hv
  | assign x e ih =>
    rw [lowerNode, survey]
    exact (tracks_valueOf e e.lowerNode_keeps ih).bind (keeps_valueOf e e.lowerNode_keeps)
      fun v _ hv => (tracks_store x hv).bind (keeps_store x v) fun _ _ _ => tracks_pure .none
  | step k x e ih => rw [lowerNode_step, survey_step]; exact ih
  | print e ih =>
    rw [lowerNode, survey]
    exact (tracks_valueOf e e.lowerNode_keeps ih).bind (keeps_valueOf e e.lowerNode_keeps)
      fun v _ hv => (tracks_print hv).bind (keeps_print v) fun _ _ _ => tracks_pure .none
  | binary op l r ihl ihr =>
    rw [lowerNode_binary, survey_binary]
    exact (tracks_valueOf l l.lowerNode_keeps ihl).bind (keeps_valueOf l l.lowerNode_keeps)
      fun _ _ hl => (tracks_valueOf r r.lowerNode_keeps ihr).bind
        (keeps_valueOf r r.lowerNode_keeps) fun _ _ hr =>
          (tracks_binary op hl hr).bind (keeps_binary op _ _) fun _ _ hv => tracks_pure (.some hv)
  | negate e ih =>
    rw [lowerNode, survey]
    exact (tracks_valueOf e e.lowerNode_keeps ih).bind (keeps_valueOf e e.lowerNode_keeps)
      fun v _ hv => (tracks_negate hv).bind (keeps_negate v) fun _ _ hw => tracks_pure (.some hw)
  | guarded g c body ihc ihb =>
    intro s σ i hi hs hm
    obtain ⟨b₁, r, s₁, t, b₂, r', s₂, b₃, h₁, a₁, h₂, a₂, h₃, he, -, -⟩ := lowerGuarded_leads
      c.lowerNode_keeps body.lowerNode_keeps hi (loopLabels s.nextLabel) rfl rfl
      (g.exit_lt s.builder.graph.blocks.length)
    have g₁ := (s.grows_fork (loopLabels s.nextLabel)).trans (Lowering.grows_of_switches h₁)
    have hs₁ := g₁.scope hs
    obtain ⟨q₁, σ₁, e₁, m₁⟩ :=
      (tracks_condition ihc).attempted h₁.openAt hs₁ ⟨hm.faults, hm.kinds⟩ a₁
    have hcond := (keeps_valueOf c c.lowerNode_keeps).bind fun v => keeps_require .branch v .truth
    have g₂ := ((keeps_attempt hcond).of_ok h₁.openAt a₁).toGrows.trans
      (Lowering.grows_of_switches h₂)
    obtain ⟨q₂, σ₂, e₂, m₂⟩ := ihb.attempted h₂.openAt (g₂.scope hs₁) ⟨m₁.faults, m₁.kinds⟩ a₂
    rw [lowerNode_guarded, he, survey_guarded, bind_apply, e₁]
    dsimp only
    rw [bind_apply, e₂]
    exact .ok .none ⟨m₂.faults, m₂.kinds⟩
  | choice c yes no ihc ihy ihn =>
    intro s σ i hi hs hm
    obtain ⟨b₁, r, s₁, t, b₂, r', s₂, b₃, r'', s₃, b₄, h₁, a₁, h₂, a₂, h₃, a₃, h₄, he, -, -⟩ :=
      lowerChoice_leads c.lowerNode_keeps yes.lowerNode_keeps no.lowerNode_keeps hi
        (choiceLabels s.nextLabel) rfl rfl
    have g₁ := (s.grows_fork (choiceLabels s.nextLabel)).trans (Lowering.grows_of_switches h₁)
    have hs₁ := g₁.scope hs
    obtain ⟨q₁, σ₁, e₁, m₁⟩ :=
      (tracks_condition ihc).attempted h₁.openAt hs₁ ⟨hm.faults, hm.kinds⟩ a₁
    have hcond := (keeps_valueOf c c.lowerNode_keeps).bind fun v => keeps_require .branch v .truth
    have g₂ := ((keeps_attempt hcond).of_ok h₁.openAt a₁).toGrows.trans
      (Lowering.grows_of_switches h₂)
    have hs₂ := g₂.scope hs₁
    obtain ⟨q₂, σ₂, e₂, m₂⟩ := ihy.attempted h₂.openAt hs₂ ⟨m₁.faults, m₁.kinds⟩ a₂
    have g₃ := ((keeps_attempt yes.lowerNode_keeps).of_ok h₂.openAt a₂).toGrows.trans
      (Lowering.grows_of_switches h₃)
    obtain ⟨q₃, σ₃, e₃, m₃⟩ := ihn.attempted h₃.openAt (g₃.scope hs₂) ⟨m₂.faults, m₂.kinds⟩ a₃
    rw [lowerNode_choice, he, survey, bind_apply, e₁]
    dsimp only
    rw [bind_apply, e₂]
    dsimp only
    rw [bind_apply, e₃]
    exact .ok .none ⟨m₃.faults, m₃.kinds⟩
  | irregular n ts k hk hl =>
    rw [lowerNode_irregular hk hl, survey_irregular hk hl]
    exact tracks_throw _

/-! ## Whole programs -/

/-- **The faults of lowering are those of the survey**, and if there are none, then there is a
module. -/
theorem lower_result (t : Tree) :
    (t.findings = [] → ∃ m, t.lower.result = .ok m) ∧
    (t.findings ≠ [] → t.lower.result = .error t.findings) := by
  obtain ⟨r, s, i, ha, -, -, hp⟩ := t.lowerProgram_apply
  obtain ⟨s', hp', hverify⟩ := t.lowerProgram_verifies
  rw [hp] at hp'
  cases hp'
  have hstart : Lowering.entry.Mirrors ⟨.empty, []⟩ := ⟨rfl, fun _ => rfl⟩
  obtain ⟨r', σ, e, hm⟩ := t.lowerNode_tracks.attempted Lowering.entry_openAt nofun hstart ha
  have hf : t.findings = s.faults := by
    rw [hm.faults]
    unfold findings
    rw [e]
    rfl
  have hlower : t.lower.result =
      { s with builder := s.builder.close i (.ret 0) : Lowering }.finish := by
    unfold lower
    rw [hp]
  rw [hf, hlower]
  unfold Lowering.finish
  dsimp only at hverify ⊢
  constructor
  · intro h
    rw [h, List.isEmpty_nil, if_pos rfl, hverify]
    exact ⟨_, rfl⟩
  · intro h
    rw [if_neg (by rwa [List.isEmpty_iff])]

end Tree

end FlowLang
