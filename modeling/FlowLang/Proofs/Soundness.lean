import FlowLang.Proofs.MachineTyping
import FlowLang.Proofs.Numbering

/-!
# Lowered code makes sense

`Tree.lower_sound`: whatever the tree, a module that lowering gives out never fails because a value
is missing or because the module makes no sense. It is about `generate` and then `run`, and needs no
check of the tree: names may be declared twice, and statements may stand where an expression is
expected.

A value is computed in one block and read in another, and loops come back to where they were. So the
proof follows the rules of lowering, from the end: `Secure` says that a run is sound for `n` steps
from the start of a tree's code, if it is so from all points at which that code can arrive, with the
values from before as they were. A loop is sound for `n` steps by induction on `n`.
-/

namespace FlowLang

variable {W : Type} [Writer W]

/-- The first `n` steps from `c` are sound. -/
def SafeFor (m : Module) (n : Nat) (c : Config W) : Prop :=
  ∀ k < n, ∀ c', m.Steps k c c' → c'.Sound m

/-- Where the code of a tree that gives `v` can arrive: at the insertion point of `b`, with the
values below `bound` as they were in `μ`. -/
structure Reached (m : Module) (bound : Nat) (v : Option Value) (b : Builder) (μ : Machine W)
    (c : Config W) : Prop where
  ahead : m.graph.Ahead b c.block c.rest
  typed : Typed m c.machine
  frame : ∀ j < bound, c.machine.values[j]? = μ.values[j]?
  value : ∀ u, v = some u → Provides m c.machine u

/-- The code between two insertion points is sound, if what follows it is. -/
def Secure (W : Type) [Writer W] (m : Module) (b : Builder) (v : Option Value) (b' : Builder) :
    Prop :=
  ∀ n (c : Config W), m.graph.Ahead b c.block c.rest → Typed m c.machine →
    (∀ c', Reached m b.nextValue v b' c.machine c' → SafeFor m n c') → SafeFor m n c

namespace SafeFor

variable {m : Module} {n : Nat} {c : Config W}

theorem mono {k : Nat} (h : SafeFor m n c) (hk : k ≤ n) : SafeFor m k c :=
  fun j hj => h j (Nat.lt_of_lt_of_le hj hk)

/-- A sound step, and `n` more of them. -/
theorem of_step (hs : c.Sound m) (h : ∀ c', m.step c = .next c' → SafeFor m n c') :
    SafeFor m (n + 1) c := by
  rintro k hk c' (_ | ⟨hstep, hrest⟩)
  · exact hs
  · exact h _ hstep _ (Nat.lt_of_succ_lt_succ hk) c' hrest

/-- An instruction, and what follows it. -/
theorem of_instr {i : Instr} {rest : List Instr} (hr : c.rest = i :: rest) (hw : i.WellFormed m)
    (hreads : ∀ v ∈ i.reads, Provides m c.machine v) (ht : Typed m c.machine)
    (h : ∀ μ, Typed m μ → Wrote m c.machine i.dest? μ → SafeFor m n ⟨c.block, rest, μ⟩) :
    SafeFor m n c := by
  have hs : c.Sound m := by
    refine ⟨ht, fun j more hj => ?_, fun hnil => ?_, by rwa [Config.reads_cons hr]⟩
    · rw [hr] at hj
      cases hj
      exact hw
    · rw [hr] at hnil
      cases hnil
  refine mono (of_step hs fun c' hc' => ?_) (Nat.le_succ n)
  rcases hs.instr_step hr with ⟨μ, hstep, hμ, hwrote⟩ | ⟨result, μ, hend, -⟩
  · rw [hstep] at hc'
    cases hc'
    exact h μ hμ hwrote
  · rw [hend] at hc'
    cases hc'

/-- A terminator, and what follows it at all of its targets. -/
theorem of_exit {t : Terminator} (hr : c.rest = []) (he : c.block.exit? = some t)
    (hw : t.WellFormed m) (hreads : ∀ v ∈ t.reads, Provides m c.machine v) (ht : Typed m c.machine)
    (h : ∀ k ∈ t.successors, ∀ c' : Config W, c'.AtStart m k → c'.machine = c.machine →
      SafeFor m n c') :
    SafeFor m (n + 1) c := by
  have hs : c.Sound m := by
    refine ⟨ht, fun j more hj => ?_, fun _ => ⟨t, he, hw⟩, by rwa [Config.reads_nil hr he]⟩
    rw [hr] at hj
    cases hj
  refine of_step hs fun c' hc' => ?_
  rcases hs.exit_step hr he with ⟨k, hk, c'', hstep, hstart, hm⟩ | ⟨result, μ, hend, -⟩
  · rw [hstep] at hc'
    cases hc'
    exact h k hk _ hstart hm
  · rw [hend] at hc'
    cases hc'

end SafeFor

/-! ## Instructions -/

section Instructions

variable {m : Module} {n : Nat} {b b' : Builder} {c : Config W} {ins : Instr}

omit [Writer W] in
theorem Provides.of_frame {μ μ' : Machine W} {v : Value} {bound : Nat} (h : Provides m μ v)
    (hv : v.index < bound) (hf : ∀ j < bound, μ'.values[j]? = μ.values[j]?) : Provides m μ' v := by
  obtain ⟨s, hs, hfit⟩ := h
  exact ⟨s, (hf _ hv).trans hs, hfit⟩

omit [Writer W] in
theorem Reached.trans {bound bound' : Nat} {v v' : Option Value} {μ : Machine W} {c' : Config W}
    (h : Reached m bound v b μ c) (h' : Reached m bound' v' b' c.machine c')
    (hle : bound ≤ bound') : Reached m bound v' b' μ c' :=
  ⟨h'.ahead, h'.typed, fun j hj => (h'.frame j (Nat.lt_of_lt_of_le hj hle)).trans (h.frame j hj),
    h'.value⟩

theorem safeFor_defines {v : Value} (ha : m.graph.Ahead b c.block c.rest) (hd : b.Defines v ins b')
    (hx : b'.graph.Extends m.graph) (hdest : ins.dest? = some v) (hw : ins.WellFormed m)
    (hreads : ∀ v ∈ ins.reads, Provides m c.machine v) (ht : Typed m c.machine)
    (h : ∀ c', Reached m b.nextValue (some v) b' c.machine c' → SafeFor m n c') :
    SafeFor m n c := by
  obtain ⟨rest, hrest, ha'⟩ := ha.defines hd hx
  refine .of_instr hrest hw hreads ht fun μ hμ hwrote => h _ ?_
  rw [hdest] at hwrote
  obtain ⟨s, hfit, hvalues⟩ := hwrote
  refine ⟨ha', hμ, fun j hj => ?_, ?_⟩
  · show μ.values[j]? = _
    rw [hvalues]
    exact c.machine.define_values_of_lt s (by rw [hd.1]; exact hj)
  · rintro _ ⟨⟩
    refine ⟨s, ?_, hfit⟩
    show μ.values[v.index]? = _
    rw [hvalues]
    exact c.machine.define_values_self v s

theorem safeFor_emits (bound : Nat) (ha : m.graph.Ahead b c.block c.rest) (he : b.Emits ins b')
    (hx : b'.graph.Extends m.graph) (hdest : ins.dest? = none) (hw : ins.WellFormed m)
    (hreads : ∀ v ∈ ins.reads, Provides m c.machine v) (ht : Typed m c.machine)
    (h : ∀ c', Reached m bound none b' c.machine c' → SafeFor m n c') : SafeFor m n c := by
  obtain ⟨rest, hrest, ha'⟩ := ha.emits he hx
  refine .of_instr hrest hw hreads ht fun μ hμ hwrote => h _ ?_
  rw [hdest] at hwrote
  exact ⟨ha', hμ, fun j _ => by rw [show μ.values = _ from hwrote], nofun⟩

end Instructions

/-! ## Control -/

section Control

variable {m : Module} {b b' : Builder} {c : Config W}

theorem wellFormed_jump {k : Nat} (hk : k < m.graph.blocks.length) :
    (Terminator.jump k).WellFormed m :=
  ⟨nofun, fun j hj => by rw [List.mem_singleton.mp hj]; exact hk⟩

theorem wellFormed_branch {v : Value} {yes no : Nat} (hv : v.ty = .truth)
    (hy : yes < m.graph.blocks.length) (hn : no < m.graph.blocks.length) :
    (Terminator.branch v yes no).WellFormed m := by
  refine ⟨fun u hu => by rw [List.mem_singleton.mp hu]; exact hv, fun j hj => ?_⟩
  rcases List.mem_cons.mp hj with rfl | hj
  · exact hy
  · rw [List.mem_singleton.mp hj]
    exact hn

/-- A jump out of the block of the insertion point. -/
theorem safeFor_jump {k next n : Nat} (ha : m.graph.Ahead b c.block c.rest)
    (hs : b.Switches (.jump next) k b') (hx : b'.graph.Extends m.graph)
    (hnext : next < m.graph.blocks.length) (ht : Typed m c.machine)
    (h : ∀ c' : Config W, c'.AtStart m next → c'.machine = c.machine → SafeFor m n c') :
    SafeFor m n c := by
  obtain ⟨hrest, hexit⟩ := ha.switches hs hx
  refine (SafeFor.of_exit hrest hexit (wellFormed_jump hnext) nofun ht ?_).mono (Nat.le_succ n)
  intro j hj
  rw [List.mem_singleton.mp hj]
  exact h

/-- A branch out of the block of the insertion point takes one step. -/
theorem safeFor_branch {v : Value} {k yes no n : Nat} (ha : m.graph.Ahead b c.block c.rest)
    (hs : b.Switches (.branch v yes no) k b') (hx : b'.graph.Extends m.graph) (hv : v.ty = .truth)
    (hyes : yes < m.graph.blocks.length) (hno : no < m.graph.blocks.length)
    (hp : Provides m c.machine v) (ht : Typed m c.machine)
    (hy : ∀ c' : Config W, c'.AtStart m yes → c'.machine = c.machine → SafeFor m n c')
    (hn : ∀ c' : Config W, c'.AtStart m no → c'.machine = c.machine → SafeFor m n c') :
    SafeFor m (n + 1) c := by
  obtain ⟨hrest, hexit⟩ := ha.switches hs hx
  refine .of_exit hrest hexit (wellFormed_branch hv hyes hno) ?_ ht fun j hj => ?_
  · intro u hu
    rw [List.mem_singleton.mp hu]
    exact hp
  · rcases List.mem_cons.mp hj with rfl | hj
    · exact hy
    · rw [List.mem_singleton.mp hj]
      exact hn

theorem secure_guarded {g : Guard} {s : Lowering} {labels : List String} {n : Nat} {v : Value}
    {w : Option Value} {b₁ b₂ b₃ b₄ b₅ : Builder}
    (h₁ : (s.fork labels).builder.Switches (.jump n) n b₁) (hx₁ : b₁.graph.Extends m.graph)
    (htest : Secure W m b₁ (some v) b₂) (hv : v.ty = .truth)
    (h₂ : b₂.Switches (.branch v (n + 1) (n + 2)) (n + 1) b₃) (hx₃ : b₃.graph.Extends m.graph)
    (hle : s.builder.nextValue ≤ b₃.nextValue) (hbody : Secure W m b₃ w b₄)
    (h₃ : b₄.Switches (.jump (g.exit n)) (n + 2) b₅) (hx₅ : b₅.graph.Extends m.graph) :
    Secure W m s.builder none b₅ := by
  intro k c ha ht hafter
  have hlt₁ := h₁.lt hx₁
  have hlt₂ := h₂.lt hx₃
  have hlt₃ := h₃.lt hx₅
  have hleave : ∀ j ≤ k, ∀ c' : Config W, c'.AtStart m (n + 2) → Typed m c'.machine →
      (∀ i < s.builder.nextValue, c'.machine.values[i]? = c.machine.values[i]?) → SafeFor m j c' :=
    fun j hj c' hstart ht' hf => (hafter c' ⟨hstart.ahead h₃ hx₅, ht', hf, nofun⟩).mono hj
  -- the block of the condition, by induction on the steps that are left: a round takes at least one
  have hloop : ∀ j ≤ k, ∀ c' : Config W, c'.AtStart m n → Typed m c'.machine →
      (∀ i < s.builder.nextValue, c'.machine.values[i]? = c.machine.values[i]?) →
      SafeFor m j c' := by
    intro j
    induction j with
    | zero => exact fun _ _ _ _ _ i hi => absurd hi (Nat.not_lt_zero i)
    | succ j ih =>
      intro hj c₁ hstart₁ ht₁ hf₁
      refine htest (j + 1) c₁ (hstart₁.ahead h₁ hx₁) ht₁ fun c₂ r₂ => ?_
      have hf₂ : ∀ i < s.builder.nextValue, c₂.machine.values[i]? = c.machine.values[i]? :=
        fun i hi => (r₂.frame i (h₁.nextValue ▸ hi)).trans (hf₁ i hi)
      refine safeFor_branch r₂.ahead h₂ hx₃ hv hlt₂ hlt₃ (r₂.value v rfl) r₂.typed ?_ ?_
      · intro c₃ hstart₃ hm₃
        refine hbody j c₃ (hstart₃.ahead h₂ hx₃) (by rw [hm₃]; exact r₂.typed) fun c₄ r₄ => ?_
        have hf₄ : ∀ i < s.builder.nextValue, c₄.machine.values[i]? = c.machine.values[i]? := by
          intro i hi
          rw [r₄.frame i (Nat.lt_of_lt_of_le hi hle), hm₃]
          exact hf₂ i hi
        refine safeFor_jump r₄.ahead h₃ hx₅ (by cases g <;> assumption) r₄.typed ?_
        intro c₅ hstart₅ hm₅
        cases g with
        | loop =>
          exact ih (by omega) c₅ hstart₅ (by rw [hm₅]; exact r₄.typed) (by rw [hm₅]; exact hf₄)
        | condition =>
          exact hleave j (by omega) c₅ hstart₅ (by rw [hm₅]; exact r₄.typed)
            (by rw [hm₅]; exact hf₄)
      · intro c₃ hstart₃ hm₃
        exact hleave j (by omega) c₃ hstart₃ (by rw [hm₃]; exact r₂.typed) (by rw [hm₃]; exact hf₂)
  refine safeFor_jump (ha.addBlocks labels) h₁ hx₁ hlt₁ ht fun c₁ hstart hm => ?_
  exact hloop k (Nat.le_refl k) c₁ hstart (by rwa [hm]) fun i _ => by rw [hm]

theorem secure_choice {s : Lowering} {labels : List String} {n : Nat} {v : Value}
    {w w' : Option Value} {b₁ b₂ b₃ b₄ b₅ b₆ b₇ : Builder}
    (h₁ : (s.fork labels).builder.Switches (.jump n) n b₁) (hx₁ : b₁.graph.Extends m.graph)
    (htest : Secure W m b₁ (some v) b₂) (hv : v.ty = .truth)
    (h₂ : b₂.Switches (.branch v (n + 1) (n + 2)) (n + 1) b₃) (hx₃ : b₃.graph.Extends m.graph)
    (hle₃ : s.builder.nextValue ≤ b₃.nextValue) (hyes : Secure W m b₃ w b₄)
    (h₃ : b₄.Switches (.jump (n + 3)) (n + 2) b₅) (hx₅ : b₅.graph.Extends m.graph)
    (hle₅ : s.builder.nextValue ≤ b₅.nextValue) (hno : Secure W m b₅ w' b₆)
    (h₄ : b₆.Switches (.jump (n + 3)) (n + 3) b₇) (hx₇ : b₇.graph.Extends m.graph) :
    Secure W m s.builder none b₇ := by
  intro k c ha ht hafter
  have hlt₇ := h₄.lt hx₇
  refine safeFor_jump (ha.addBlocks labels) h₁ hx₁ (h₁.lt hx₁) ht fun c₁ hstart₁ hm₁ => ?_
  refine htest k c₁ (hstart₁.ahead h₁ hx₁) (by rwa [hm₁]) fun c₂ r₂ => ?_
  have hf₂ : ∀ i < s.builder.nextValue, c₂.machine.values[i]? = c.machine.values[i]? := by
    intro i hi
    rw [r₂.frame i (h₁.nextValue ▸ hi), hm₁]
  -- both arms lead to the last block, with the values from before the choice
  have harm : ∀ {b b' b'' : Builder} {u : Option Value} {j : Nat} {c₃ : Config W},
      Secure W m b u b' →
      b'.Switches (.jump (n + 3)) j b'' → b''.graph.Extends m.graph →
      s.builder.nextValue ≤ b.nextValue → m.graph.Ahead b c₃.block c₃.rest →
      c₃.machine = c₂.machine → SafeFor m k c₃ := by
    intro b b' b'' u j c₃ hsec hsw hxb hle ha₃ hm₃
    refine hsec k c₃ ha₃ (by rw [hm₃]; exact r₂.typed) fun c₄ r₄ => ?_
    refine safeFor_jump r₄.ahead hsw hxb hlt₇ r₄.typed fun c₅ hstart₅ hm₅ => ?_
    refine hafter c₅ ⟨hstart₅.ahead h₄ hx₇, by rw [hm₅]; exact r₄.typed, fun i hi => ?_, nofun⟩
    rw [hm₅, r₄.frame i (Nat.lt_of_lt_of_le hi hle), hm₃, hf₂ i hi]
  refine SafeFor.mono (safeFor_branch (n := k) r₂.ahead h₂ hx₃ hv (h₂.lt hx₃) (h₃.lt hx₅)
    (r₂.value v rfl) r₂.typed ?_ ?_) (Nat.le_succ k)
  · intro c₃ hstart₃ hm₃
    exact harm hyes h₃ hx₅ hle₃ (hstart₃.ahead h₂ hx₃) hm₃
  · intro c₃ hstart₃ hm₃
    exact harm hno h₄ hx₇ hle₅ (hstart₃.ahead h₃ hx₅) hm₃

end Control

/-! ## Whole trees -/

theorem Binary.wellFormed_instr {m : Module} {op : Binary} {lhs rhs v : Value}
    (tl : lhs.ty = op.operand) (tr : rhs.ty = op.operand) (hv : v.ty = op.result) :
    (op.instr v lhs rhs).WellFormed m := by
  cases op <;> exact ⟨hv, tl, tr⟩

theorem Binary.reads_instr (op : Binary) (lhs rhs v : Value) :
    (op.instr v lhs rhs).reads = [lhs, rhs] := by
  cases op <;> rfl

theorem Binary.dest?_instr (op : Binary) (lhs rhs v : Value) :
    (op.instr v lhs rhs).dest? = some v := by
  cases op <;> rfl

namespace Tree

/-- **The code of a lowered tree is sound**, if what follows it is. -/
theorem Lowers.secure {m : Module} {t : Tree} {s s' : Lowering} {v : Option Value}
    (h : t.Lowers s v s') (hx : s'.builder.graph.Extends m.graph) (hs : s'.strings <+: m.strings) :
    Secure W m s.builder v s'.builder := by
  induction h with
  | nothing => exact fun n c ha ht hafter => hafter c ⟨ha, ht, fun _ _ => rfl, nofun⟩
  | last _ ih => exact ih hx hs
  | next h h' ih ih' =>
    intro n c ha ht hafter
    refine ih (h'.grows.graph.trans hx) (h'.grows.strings.trans hs) n c ha ht fun c₁ r₁ => ?_
    refine ih' hx hs n c₁ r₁.ahead r₁.typed fun c₂ r₂ => ?_
    exact hafter c₂ (r₁.trans r₂ h.grows.values)
  | program _ ih => exact ih hx hs
  | name _ he hv hd =>
    intro n c ha ht hafter
    exact safeFor_defines ha hd hx rfl ⟨_, (hd.extends.trans hx).slot he, hv⟩ nofun ht hafter
  | literal hv hd =>
    intro n c ha ht hafter
    exact safeFor_defines ha hd hx rfl hv nofun ht hafter
  | @text text s v b hv hd =>
    intro n c ha ht hafter
    have hid := getElem?_of_isPrefix hs (s.interner.getElem?_intern text)
    exact safeFor_defines ha hd hx rfl ⟨hv, (List.getElem?_eq_some_iff.mp hid).1⟩ nofun ht hafter
  | @declare x kind s s₁ v b h hv he ih =>
    intro n c ha ht hafter
    have hslot :=
      (he.extends.trans hx).slot (List.getElem?_concat_length (l := s₁.builder.graph.slots))
    have hx₁ := (Builder.addSlot_extends _ _).trans (he.extends.trans hx)
    refine ih hx₁ hs n c ha ht fun c₁ r₁ => ?_
    have ha₁ : m.graph.Ahead (s₁.builder.addSlot ⟨x, Lower.typeOf kind⟩) c₁.block c₁.rest :=
      r₁.ahead
    refine safeFor_emits s₁.builder.nextValue ha₁ he hx rfl ⟨_, hslot, hv⟩ ?_ r₁.typed
      fun c₂ r₂ => ?_
    · exact fun u hu => by rw [List.mem_singleton.mp hu]; exact r₁.value v rfl
    · exact hafter c₂ (r₁.trans r₂ h.grows.values)
  | @assign x e s s₁ v binding entry b h _ hslot hv he ih =>
    intro n c ha ht hafter
    refine ih (he.extends.trans hx) hs n c ha ht fun c₁ r₁ => ?_
    refine safeFor_emits s₁.builder.nextValue r₁.ahead he hx rfl
      ⟨_, (he.extends.trans hx).slot hslot, hv⟩ ?_ r₁.typed fun c₂ r₂ => ?_
    · exact fun u hu => by rw [List.mem_singleton.mp hu]; exact r₁.value v rfl
    · exact hafter c₂ (r₁.trans r₂ h.grows.values)
  | step _ ih => exact ih hx hs
  | @print e s s₁ v callee b h hv he ih =>
    intro n c ha ht hafter
    refine ih (he.extends.trans hx) hs n c ha ht fun c₁ r₁ => ?_
    refine safeFor_emits s₁.builder.nextValue r₁.ahead he hx rfl ⟨v, rfl, hv⟩ ?_ r₁.typed
      fun c₂ r₂ => ?_
    · exact fun u hu => by rw [List.mem_singleton.mp hu]; exact r₁.value v rfl
    · exact hafter c₂ (r₁.trans r₂ h.grows.values)
  | @binary op l r s s₁ s₂ lhs rhs v b hl hr tl tr hv hd ihl ihr =>
    intro n c ha ht hafter
    have hx₂ := hd.extends.trans hx
    refine ihl (hr.grows.graph.trans hx₂) (hr.grows.strings.trans hs) n c ha ht fun c₁ r₁ => ?_
    refine ihr hx₂ hs n c₁ r₁.ahead r₁.typed fun c₂ r₂ => ?_
    refine safeFor_defines r₂.ahead hd hx (op.dest?_instr ..) (Binary.wellFormed_instr tl tr hv) ?_
      r₂.typed fun c₃ r₃ => ?_
    · rw [op.reads_instr]
      intro u hu
      rcases List.mem_cons.mp hu with rfl | hu
      · -- the left operand was computed before the right one
        exact (r₁.value _ rfl).of_frame (hl.value_lt _ rfl) r₂.frame
      · rw [List.mem_singleton.mp hu]
        exact r₂.value rhs rfl
    · exact hafter c₃ ((r₁.trans r₂ hl.grows.values).trans r₃
        (hl.grows.values.trans hr.grows.values))
  | @negate e s s₁ operand v b h ht' hv hd ih =>
    intro n c ha ht hafter
    refine ih (hd.extends.trans hx) hs n c ha ht fun c₁ r₁ => ?_
    refine safeFor_defines r₁.ahead hd hx rfl ⟨hv, ht'⟩ ?_ r₁.typed fun c₂ r₂ => ?_
    · exact fun u hu => by rw [List.mem_singleton.mp hu]; exact r₁.value operand rfl
    · exact hafter c₂ (r₁.trans r₂ h.grows.values)
  | @guarded g t body s s₁ s₂ n v w b₁ b₂ b₃ hlen h₁ ht hv h₂ hb h₃ iht ihb =>
    have hx₂ := hb.grows.graph.trans (h₃.extends.trans hx)
    have hx₁ := ht.grows.graph.trans (h₂.extends.trans hx₂)
    have hle := ((((Lowering.grows_fork s _).trans (Lowering.grows_of_switches h₁)).trans
      ht.grows).trans (Lowering.grows_of_switches h₂)).values
    exact secure_guarded h₁ hx₁ (iht (h₂.extends.trans hx₂) (hb.grows.strings.trans hs)) hv h₂ hx₂
      hle (ihb (h₃.extends.trans hx) hs) h₃ hx
  | @choice t yes no s s₁ s₂ s₃ n v w w' b₁ b₂ b₃ b₄ hlen h₁ ht hv h₂ hy h₃ hno h₄ iht ihy ihn =>
    have hx₃ := hno.grows.graph.trans (h₄.extends.trans hx)
    have hx₂ := hy.grows.graph.trans (h₃.extends.trans hx₃)
    have hx₁ := ht.grows.graph.trans (h₂.extends.trans hx₂)
    have hs₂ := hno.grows.strings.trans hs
    have hg₂ := (((Lowering.grows_fork s _).trans (Lowering.grows_of_switches h₁)).trans
      ht.grows).trans (Lowering.grows_of_switches h₂)
    have hg₃ := (hg₂.trans hy.grows).trans (Lowering.grows_of_switches h₃)
    exact secure_choice h₁ hx₁ (iht (h₂.extends.trans hx₂) (hy.grows.strings.trans hs₂)) hv h₂ hx₂
      hg₂.values (ihy (h₃.extends.trans hx₃) hs₂) h₃ hx₃ hg₃.values
      (ihn (h₄.extends.trans hx) hs) h₄ hx

/-- Every point of every run of a lowered tree is sound. -/
theorem lowered_sound {t : Tree} {m : Module} (h : t.lower.result = .ok m) (w : W) :
    ∃ c, m.startFrom? (m.machineInto w) = some c ∧ ∀ k c', m.Steps k c c' → c'.Sound m := by
  obtain ⟨v, s, b, hlow, hends, rfl, -⟩ := lower_eq_ok h
  obtain ⟨block, hblock, -⟩ := (hlow.grows.graph.trans hends.extends).blocks 0 _ rfl
  have hsec := hlow.secure (W := W) (m := ⟨"emj", s.strings, b.graph⟩) hends.extends
    (List.prefix_refl _)
  refine ⟨_, by rw [Module.startFrom?, hblock]; rfl, fun k c' hsteps => ?_⟩
  refine hsec (k + 1) _ ⟨0, _, rfl, rfl, rfl, hblock, rfl⟩ (fun i slot hi => ?_) ?_ k
    (Nat.lt_succ_self k) c' hsteps
  · refine ⟨none, ?_, nofun⟩
    show (b.graph.slots.map fun _ => none)[i]? = some none
    rw [List.getElem?_map, hi]
    rfl
  · intro c₁ r₁
    obtain ⟨hrest, hexit⟩ := r₁.ahead.ends hends (.refl _)
    exact .of_exit hrest hexit ⟨nofun, nofun⟩ nofun r₁.typed nofun

/-- In a sound run that starts without values, every value was computed by an earlier step, and is
of the type of that step's result. -/
theorem defined_before {m : Module} {c : Config W} (h₀ : ∀ i : Nat, c.machine.values[i]? = none)
    (hs : ∀ k c', m.Steps k c c' → c'.Sound m) {k : Nat} {c' : Config W} (hk : m.Steps k c c')
    {i : Nat} {s : Scalar} (hi : c'.machine.values[i]? = some s) :
    ∃ j < k, ∃ c'' d, m.Steps j c c'' ∧ c''.dest? = some d ∧ d.index = i ∧
      s.Fits m.strings d.ty := by
  induction k generalizing c' with
  | zero =>
    cases hk
    rw [h₀ i] at hi
    cases hi
  | succ k ih =>
    obtain ⟨c₁, h₁, h₂⟩ := hk.split
    obtain - | ⟨hstep, ⟨⟩⟩ := h₂
    -- the last step has computed the value, or it was there before
    have hbefore : c₁.machine.values[i]? = some s → ∃ j < k + 1, ∃ c'' d, m.Steps j c c'' ∧
        c''.dest? = some d ∧ d.index = i ∧ s.Fits m.strings d.ty := by
      intro hi₁
      obtain ⟨j, hj, hrest⟩ := ih h₁ hi₁
      exact ⟨j, Nat.lt_succ_of_lt hj, hrest⟩
    rcases (hs k c₁ h₁).step with ⟨c₂, hstep', hwrote⟩ | ⟨result, μ, hend, -⟩
    · rw [hstep] at hstep'
      cases hstep'
      cases hd : c₁.dest? with
      | none =>
        rw [hd] at hwrote
        rw [show c'.machine.values = _ from hwrote] at hi
        exact hbefore hi
      | some d =>
        rw [hd] at hwrote
        obtain ⟨s', hfit, hvalues⟩ := hwrote
        have hdef := c₁.machine.define_values d s' i
        rw [Machine.define, ← hvalues, hi] at hdef
        split at hdef
        · rename_i hdi
          cases hdef
          exact ⟨k, Nat.lt_succ_self k, c₁, d, h₁, hd, hdi, hfit⟩
        · exact hbefore hdef.symm
    · rw [hend] at hstep
      cases hstep

/-- A run whose points are all sound does not fail for an internal reason. -/
theorem runFrom_not_internal {m : Module} {μ : Machine W} {c : Config W}
    (hstart : m.startFrom? μ = some c) (hsound : ∀ k c', m.Steps k c c' → c'.Sound m) {limit : Nat}
    {e : MachineFault} (he : (m.runFrom limit μ).1.result = .error e) : ¬e.Internal := by
  rcases Module.runFrom_cases hstart limit with ⟨c', -, hr⟩ | ⟨j, c', result, μ', -, hj, hend, hr⟩
  · rw [hr] at he
    cases he
    exact id
  · rw [hr] at he
    rcases (hsound j c' hj).step with ⟨c'', hnext, -⟩ | ⟨result', μ'', hend', hne⟩
    · rw [hend] at hnext
      cases hnext
    · rw [hend] at hend'
      cases hend'
      exact hne e he

/-- **Lowered code makes sense.** A module that lowering gives out never fails because a value is
missing or because the module is malformed, whatever the tree, the limit and the writer. At every
point of its run the slots hold what their types say, the next instruction or terminator is well
formed, and every value that it reads is of its type and was computed by an earlier step of the same
run.

The register from which values get their numbers must reach the values of the tree. For a 32-bit
word these are at most `2 ^ 32` (`Counter.reaches_word`). -/
theorem lower_sound {N : Type} [Counter N] {t : Tree} {m : Module}
    (h : (t.lower N).result = .ok m) (hn : Counter.Reaches N t.valueCount) (limit : Nat) (w : W) :
    (∀ i, (m.runInto limit w).result ≠ .error (.undefinedValue i)) ∧
    (∀ reason, (m.runInto limit w).result ≠ .error (.malformed reason)) ∧
    ∃ c, m.startFrom? (m.machineInto w) = some c ∧ ∀ k c', m.Steps k c c' → c'.Sound m ∧
      ∀ v ∈ c'.reads, ∃ j < k, ∃ c'', m.Steps j c c'' ∧ c''.dest? = some v := by
  rw [lower_eq_lower hn] at h
  obtain ⟨c, hstart, hsound⟩ := lowered_sound h w
  refine ⟨fun i he => runFrom_not_internal hstart hsound he trivial,
    fun reason he => runFrom_not_internal hstart hsound he trivial, c, hstart, ?_⟩
  intro k c' hk
  refine ⟨hsound k c' hk, fun v hv => ?_⟩
  obtain ⟨s, hs, hfit⟩ := (hsound k c' hk).reads v hv
  obtain ⟨block, -, rfl⟩ := Option.map_eq_some_iff.mp hstart
  have hempty : ∀ i : Nat, (m.machineInto w).values[i]? = none :=
    fun i => Std.TreeMap.getElem?_emptyc
  obtain ⟨j, hj, c'', d, hsteps, hd, hindex, hfit'⟩ := defined_before hempty hsound hk hs
  have hdv : d = v := by
    cases d
    cases v
    cases hindex
    cases hfit.unique hfit'
    rfl
  exact ⟨j, hj, c'', hsteps, by rw [hd, hdv]⟩

/-- A name that is declared twice, and a statement list where an expression is expected. -/
def redeclared : Tree :=
  mk .program [mk (.declare "x" .number) [], mk (.declare "x" .text) [],
    mk (.assign "x") [mk .block [mk (.declare "y" .text) [], mk (.name "y") []]]]

theorem redeclared_sound : ∃ m, (redeclared.lower UInt32).result = .ok m ∧
    Counter.Reaches UInt32 redeclared.valueCount ∧ ∀ (W : Type) [Writer W] (limit : Nat) (w : W) i,
      (m.runInto limit w).result ≠ .error (.undefinedValue i) := by
  obtain ⟨m, hm⟩ := exists_of_isOk (x := (redeclared.lower UInt32).result) (by decide +kernel)
  have hn : Counter.Reaches UInt32 redeclared.valueCount :=
    Counter.reaches_word.mpr (by decide +kernel)
  exact ⟨m, hm, hn, fun W _ limit w => (lower_sound hm hn limit w).1⟩

end Tree

end FlowLang
