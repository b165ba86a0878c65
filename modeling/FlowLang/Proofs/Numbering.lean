import FlowLang.Compile
import FlowLang.Proofs.LoweringGrowth

/-!
# Any register will do

Lowering takes the numbers of values from a register (`Counter`), which is `next_value` in a
`FunctionBuilder`. It makes no difference which one, as long as that register has not started again:
a step that does not take a number does not look at the register, and one that does gets the same
number.

* `Mirrors`: a step does with another register what it does with natural numbers, if the register
  reaches all values that are there after the step. Composing steps keeps this.
* `Tree.valueCount` is how many values the lowering of a tree makes.
* **`Tree.lower_eq_lower`**, `Tree.compile_eq_compile`: a register that reaches these gives the same
  module, so what is proved of natural numbers is true of a 32-bit word up to `2 ^ 32` values.
-/

namespace FlowLang

/-! ## Steps that differ in their register -/

section Steps

variable {ε σ τ α β : Type}

/-- The outcome of a step, with another state in it. -/
def mapState (f : σ → τ) : EStateM.Result ε σ α → EStateM.Result ε τ α
  | .ok a s => .ok a (f s)
  | .error e s => .error e (f s)

/-- No values are lost by the step `x`, and if the register reaches all that there are after it,
then `y` does to the image of a state what `x` does to the state. -/
def Mirrors (N : Type) [Counter N] (count : σ → Nat) (image : σ → τ) (x : EStateM ε σ α)
    (y : EStateM ε τ α) : Prop :=
  ∀ s, count s ≤ count (after (x s)) ∧
    (Counter.Reaches N (count (after (x s))) → y (image s) = mapState image (x s))

variable {N : Type} [Counter N] {count : σ → Nat} {image : σ → τ}

theorem Mirrors.bind {x : EStateM ε σ α} {y : EStateM ε τ α} {f : α → EStateM ε σ β}
    {g : α → EStateM ε τ β} (hx : Mirrors N count image x y)
    (hf : ∀ a, Mirrors N count image (f a) (g a)) :
    Mirrors N count image (x >>= f) (y >>= g) := by
  intro s
  obtain ⟨hle, heq⟩ := hx s
  rw [bind_apply, bind_apply]
  cases hs : x s with
  | error e s₁ =>
    rw [hs] at hle heq
    exact ⟨hle, fun hr => by rw [heq hr]; rfl⟩
  | ok a s₁ =>
    rw [hs] at hle heq
    obtain ⟨hle', heq'⟩ := hf a s₁
    exact ⟨hle.trans hle', fun hr => by rw [heq (hr.mono hle')]; exact heq' hr⟩

/-- A step that does not look at the register. -/
theorem mirrors_of_count {x : EStateM ε σ α} {y : EStateM ε τ α}
    (hc : ∀ s, count (after (x s)) = count s) (h : ∀ s, y (image s) = mapState image (x s)) :
    Mirrors N count image x y :=
  fun s => ⟨(hc s).ge, fun _ => h s⟩

theorem mirrors_pure (a : α) :
    Mirrors N count image (pure a : EStateM ε σ α) (pure a : EStateM ε τ α) :=
  mirrors_of_count (fun _ => rfl) fun _ => rfl

theorem mirrors_throw (e : ε) :
    Mirrors N count image (throw e : EStateM ε σ α) (throw e : EStateM ε τ α) :=
  mirrors_of_count (fun _ => rfl) fun _ => rfl

end Steps

variable {N : Type} [Counter N] {α : Type}

/-! ## Building -/

/-- The same graph under construction with another register. -/
def Builder.over (N : Type) [Counter N] (b : Builder) : Builder N :=
  ⟨b.graph, b.current?, Counter.after N b.nextValue⟩

theorem Builder.graph_over (b : Builder) : (b.over N).graph = b.graph := rfl

theorem Builder.openBlock_over (b : Builder) : (b.over N).openBlock = b.openBlock := rfl

namespace Build

open Builder

/-- Building with another register. -/
abbrev Mirrors (x : Build Nat α) (y : Build N α) : Prop :=
  FlowLang.Mirrors N Builder.nextValue (Builder.over N) x y

theorem mirrors_slotType (i : Nat) : Mirrors (slotType i) (slotType (N := N) i) := by
  refine mirrors_of_count (fun b => ?_) fun b => ?_
  · rw [slotType_apply]
    cases b.graph.slots[i]? <;> rfl
  · rw [slotType_apply, slotType_apply, graph_over]
    cases b.graph.slots[i]? <;> rfl

theorem mirrors_require (use : Use) (v : Value) (ty : Ty) :
    Mirrors (require use v ty) (require (N := N) use v ty) := by
  unfold require
  split
  · exact mirrors_pure ()
  · exact mirrors_throw _

theorem mirrors_createBlock (label : String) :
    Mirrors (createBlock label) (createBlock (N := N) label) :=
  mirrors_of_count (fun _ => rfl) fun _ => rfl

theorem mirrors_createSlot (name : String) (ty : Ty) :
    Mirrors (createSlot name ty) (createSlot (N := N) name ty) :=
  mirrors_of_count (fun _ => rfl) fun _ => rfl

theorem mirrors_switchTo (i : Nat) : Mirrors (switchTo i) (switchTo (N := N) i) := by
  refine mirrors_of_count (fun b => ?_) fun b => ?_
  · rw [switchTo_apply]
    split <;> rfl
  · rw [switchTo_apply, switchTo_apply, graph_over]
    split <;> rfl

theorem mirrors_append (ins : Instr) : Mirrors (append ins) (append (N := N) ins) := by
  refine mirrors_of_count (fun b => ?_) fun b => ?_
  · rw [append_apply]
    cases b.openBlock <;> rfl
  · rw [append_apply, append_apply, openBlock_over]
    cases b.openBlock <;> rfl

/-- The register shows the number that natural numbers would give. -/
theorem mirrors_define (ty : Ty) (f : Value → Instr) :
    Mirrors (define ty f) (define (N := N) ty f) := by
  intro b
  rw [define_apply, define_apply, openBlock_over]
  cases b.openBlock with
  | error e => exact ⟨Nat.le_refl _, fun _ => rfl⟩
  | ok i =>
    refine ⟨Nat.le_succ _, fun hr => ?_⟩
    have hindex : Counter.index (b.over N).nextValue = Counter.index b.nextValue :=
      hr b.nextValue (Nat.lt_succ_self _)
    rw [hindex]
    rfl

theorem mirrors_terminate (t : Terminator) : Mirrors (terminate t) (terminate (N := N) t) := by
  refine mirrors_of_count (fun b => ?_) fun b => ?_
  · rw [terminate_apply]
    cases b.graph.missingTarget? t with
    | some i => rfl
    | none => cases b.openBlock <;> rfl
  · rw [terminate_apply, terminate_apply, openBlock_over, graph_over]
    cases b.graph.missingTarget? t with
    | some i => rfl
    | none => cases b.openBlock <;> rfl

theorem mirrors_load (slot : Nat) : Mirrors (load slot) (load (N := N) slot) :=
  (mirrors_slotType slot).bind fun ty => mirrors_define ty _

theorem mirrors_store (slot : Nat) (v : Value) : Mirrors (store slot v) (store (N := N) slot v) :=
  (mirrors_slotType slot).bind fun ty => (mirrors_require .store v ty).bind fun _ =>
    mirrors_append _

theorem mirrors_binary (op : Binary) (lhs rhs : Value) :
    Mirrors (op.build lhs rhs) (op.build (N := N) lhs rhs) :=
  (mirrors_require _ lhs _).bind fun _ => (mirrors_require _ rhs _).bind fun _ =>
    mirrors_define _ _

theorem mirrors_negate (v : Value) : Mirrors (negate v) (negate (N := N) v) :=
  (mirrors_require _ v _).bind fun _ => mirrors_define _ _

theorem mirrors_call (callee : Printer) (v : Value) :
    Mirrors (call callee v) (call (N := N) callee v) :=
  (mirrors_require _ v _).bind fun _ => mirrors_append _

theorem mirrors_branch (v : Value) (yes no : Nat) :
    Mirrors (branch v yes no) (branch (N := N) v yes no) :=
  (mirrors_require _ v _).bind fun _ => mirrors_terminate _

end Build

/-! ## Lowering -/

/-- The same lowering with another register. -/
def Lowering.over (N : Type) [Counter N] (s : Lowering) : Lowering N :=
  ⟨s.interner, s.builder.over N, s.scope, s.faults, s.nextLabel⟩

theorem Lowering.builder_over (s : Lowering) : (s.over N).builder = s.builder.over N := rfl

theorem Lowering.scope_over (s : Lowering) : (s.over N).scope = s.scope := rfl

namespace Lower

/-- Lowering with another register. -/
abbrev Mirrors (x : Lower Nat α) (y : Lower N α) : Prop :=
  FlowLang.Mirrors N (fun s : Lowering => s.builder.nextValue) (Lowering.over N) x y

theorem mirrors_build {x : Build Nat α} {y : Build N α} (h : Build.Mirrors x y) :
    Mirrors (build x) (build y) := by
  intro s
  obtain ⟨hle, heq⟩ := h s.builder
  unfold build
  rw [Lowering.builder_over]
  cases hs : x s.builder with
  | ok a b =>
    rw [hs] at hle heq
    exact ⟨hle, fun hr => by rw [heq hr]; rfl⟩
  | error e b =>
    rw [hs] at hle heq
    exact ⟨hle, fun hr => by rw [heq hr]; rfl⟩

theorem mirrors_attempt {x : Lower Nat α} {y : Lower N α} (h : Mirrors x y) :
    Mirrors (attempt x) (attempt y) := by
  intro s
  obtain ⟨hle, heq⟩ := h s
  unfold attempt
  cases hs : x s with
  | ok a s₁ =>
    rw [hs] at hle heq
    exact ⟨hle, fun hr => by rw [heq hr]; rfl⟩
  | error e s₁ =>
    rw [hs] at hle heq
    exact ⟨hle, fun hr => by rw [heq hr]; rfl⟩

theorem mirrors_valueOf (t : Tree) {x : Lower Nat (Option Value)} {y : Lower N (Option Value)}
    (h : Mirrors x y) : Mirrors (valueOf t x) (valueOf t y) :=
  h.bind fun v => by
    cases v with
    | some v => exact mirrors_pure v
    | none => exact mirrors_throw _

theorem mirrors_slotOf (x : String) : Mirrors (slotOf x) (slotOf (N := N) x) := by
  refine mirrors_of_count (fun s => ?_) fun s => ?_
  · rw [slotOf_apply]
    cases s.scope.lookup? x <;> rfl
  · rw [slotOf_apply, slotOf_apply, Lowering.scope_over]
    cases s.scope.lookup? x <;> rfl

theorem mirrors_stringConstant (text : String) :
    Mirrors (stringConstant text) (stringConstant (N := N) text) := fun s =>
  mirrors_build (Build.mirrors_define .pointer (.string · (s.interner.intern text).1))
    { s with interner := (s.interner.intern text).2 }

theorem mirrors_store (x : String) (v : Value) : Mirrors (store x v) (store (N := N) x v) :=
  (mirrors_slotOf x).bind fun slot => mirrors_build (Build.mirrors_store slot v)

theorem mirrors_print (v : Value) : Mirrors (print v) (print (N := N) v) := by
  unfold print
  split
  · exact mirrors_build (Build.mirrors_call _ v)
  · exact mirrors_build (Build.mirrors_call _ v)
  · exact mirrors_throw _

theorem mirrors_branchOn {x : Lower Nat Value} {y : Lower N Value} (h : Mirrors x y)
    (yes no : Nat) : Mirrors (branchOn x yes no) (branchOn y yes no) := by
  refine (mirrors_attempt (h.bind fun v =>
    mirrors_build (Build.mirrors_branch v yes no))).bind fun branched => ?_
  split
  · exact mirrors_build (Build.mirrors_terminate _)
  · exact mirrors_pure ()

theorem mirrors_body {x : Lower Nat (Option Value)} {y : Lower N (Option Value)} (h : Mirrors x y)
    (block next : Nat) : Mirrors (body block next x) (body block next y) :=
  (mirrors_build (Build.mirrors_switchTo block)).bind fun _ => (mirrors_attempt h).bind fun _ =>
    mirrors_build (Build.mirrors_terminate _)

end Lower

namespace Tree

open Lower

theorem mirrors_lowerAll {ts : List Tree}
    (h : ∀ t ∈ ts, Lower.Mirrors t.lowerNode (t.lowerNode (N := N))) (last : Option Value) :
    Lower.Mirrors (lowerAll last ts) (lowerAll (N := N) last ts) := by
  induction ts generalizing last with
  | nil =>
    rw [lowerAll, lowerAll]
    exact mirrors_pure last
  | cons t ts ih =>
    obtain ⟨ht, hts⟩ := List.forall_mem_cons.mp h
    rw [lowerAll, lowerAll]
    exact (mirrors_attempt ht).bind fun v => ih hts v.join

/-- What a loop or a condition does after its three blocks were made. -/
theorem mirrors_lowerGuarded {c b : Tree} (hc : Lower.Mirrors c.lowerNode (c.lowerNode (N := N)))
    (hb : Lower.Mirrors b.lowerNode (b.lowerNode (N := N))) (test inside after next : Nat) :
    Lower.Mirrors (lowerGuarded c b test inside after next)
      (lowerGuarded (N := N) c b test inside after next) :=
  (mirrors_build (Build.mirrors_terminate _)).bind fun _ =>
    (mirrors_build (Build.mirrors_switchTo test)).bind fun _ =>
    (mirrors_branchOn (mirrors_valueOf c hc) inside after).bind fun _ =>
    (mirrors_body hb inside next).bind fun _ =>
    (mirrors_build (Build.mirrors_switchTo after)).bind fun _ => mirrors_pure none

/-- What a choice does after its four blocks were made. -/
theorem mirrors_lowerChoice {c b e : Tree}
    (hc : Lower.Mirrors c.lowerNode (c.lowerNode (N := N)))
    (hb : Lower.Mirrors b.lowerNode (b.lowerNode (N := N)))
    (he : Lower.Mirrors e.lowerNode (e.lowerNode (N := N))) (test yes no after : Nat) :
    Lower.Mirrors (lowerChoice c b e test yes no after)
      (lowerChoice (N := N) c b e test yes no after) :=
  (mirrors_build (Build.mirrors_terminate _)).bind fun _ =>
    (mirrors_build (Build.mirrors_switchTo test)).bind fun _ =>
    (mirrors_branchOn (mirrors_valueOf c hc) yes no).bind fun _ =>
    (mirrors_body hb yes after).bind fun _ =>
    (mirrors_body he no after).bind fun _ =>
    (mirrors_build (Build.mirrors_switchTo after)).bind fun _ => mirrors_pure none

/-- **Lowering a tree is the same with every register that reaches far enough.** -/
theorem mirrors_lowerNode (t : Tree) : Lower.Mirrors t.lowerNode (t.lowerNode (N := N)) := by
  induction t using form_induct with
  | program ts ih =>
    rw [lowerNode, lowerNode]
    exact mirrors_lowerAll ih none
  | block ts ih =>
    rw [lowerNode, lowerNode]
    exact mirrors_lowerAll ih none
  | name x =>
    rw [lowerNode, lowerNode]
    exact ((mirrors_slotOf x).bind fun slot =>
      mirrors_build (Build.mirrors_load slot)).bind fun v => mirrors_pure (some v)
  | literal l =>
    rw [lowerNode_literal, lowerNode_literal]
    exact (mirrors_build (Build.mirrors_define _ _)).bind fun v => mirrors_pure (some v)
  | text s =>
    rw [lowerNode, lowerNode]
    exact (mirrors_stringConstant s).bind fun v => mirrors_pure (some v)
  | declare x kind ih =>
    rw [lowerNode_declare, lowerNode_declare]
    refine (mirrors_valueOf _ ih).bind fun v =>
      (mirrors_build (Build.mirrors_createSlot x _)).bind fun slot =>
      (mirrors_build (Build.mirrors_store slot v)).bind fun _ =>
      Mirrors.bind ?_ fun _ => mirrors_pure none
    exact mirrors_of_count (fun _ => rfl) fun _ => rfl
  | assign x e ih =>
    rw [lowerNode, lowerNode]
    exact (mirrors_valueOf e ih).bind fun v => (mirrors_store x v).bind fun _ => mirrors_pure none
  | step k x e ih =>
    rw [lowerNode_step, lowerNode_step]
    exact ih
  | print e ih =>
    rw [lowerNode, lowerNode]
    exact (mirrors_valueOf e ih).bind fun v => (mirrors_print v).bind fun _ => mirrors_pure none
  | binary op l r ihl ihr =>
    rw [lowerNode_binary, lowerNode_binary]
    exact (mirrors_valueOf l ihl).bind fun lhs => (mirrors_valueOf r ihr).bind fun rhs =>
      (mirrors_build (Build.mirrors_binary op lhs rhs)).bind fun v => mirrors_pure (some v)
  | negate e ih =>
    rw [lowerNode, lowerNode]
    exact (mirrors_valueOf e ih).bind fun v =>
      (mirrors_build (Build.mirrors_negate v)).bind fun v => mirrors_pure (some v)
  | guarded g c b ihc ihb =>
    intro s
    rw [lowerNode_guarded, lowerNode_guarded]
    exact mirrors_lowerGuarded ihc ihb _ _ _ _ (s.fork _)
  | choice c b e ihc ihb ihe =>
    intro s
    rw [lowerNode_choice, lowerNode_choice]
    exact mirrors_lowerChoice ihc ihb ihe _ _ _ _ (s.fork _)
  | irregular n ts k hk hl =>
    rw [lowerNode_irregular hk hl, lowerNode_irregular hk hl]
    exact mirrors_throw _

/-- How many values the lowering of a tree makes. -/
def valueCount (t : Tree) : Nat :=
  (after (t.lowerProgram (Lowering.start : Lowering))).builder.nextValue

/-- **A register that reaches all values of a tree gives the same module.** -/
theorem lower_eq_lower {t : Tree} (h : Counter.Reaches N t.valueCount) : t.lower N = t.lower := by
  have hm : Lower.Mirrors t.lowerProgram (t.lowerProgram (N := N)) :=
    (mirrors_build (Build.mirrors_createBlock _)).bind fun entry =>
      (mirrors_build (Build.mirrors_switchTo entry)).bind fun _ =>
      (mirrors_attempt t.mirrors_lowerNode).bind fun _ =>
      (mirrors_attempt (mirrors_build (Build.mirrors_terminate _))).bind fun _ => mirrors_pure ()
  have hrun : t.lowerProgram (Lowering.start : Lowering N) = _ := (hm .start).2 h
  unfold lower
  rw [hrun]
  cases t.lowerProgram (Lowering.start : Lowering) <;> rfl

theorem compile_eq_compile {t : Tree} (h : Counter.Reaches N t.valueCount) :
    t.compile N = t.compile := by
  unfold compile
  rw [lower_eq_lower h]

end Tree

end FlowLang
