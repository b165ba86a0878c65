import FlowLang.Proofs.Drafts

/-!
# Well-typed modules

A module is well typed if its instructions and terminators are well formed and read only values that
some instruction computes, and if no two values share a number. Nothing is said about the order in
which values are computed: a run may find that one is not there yet.

* `Consistent m μ`: the values and slots of the machine hold what their types say, as far as they
  hold anything.
* `Config.Coherent.step`: a step of a well-typed module keeps this, or ends the run, and not because
  the module makes no sense.
* `Draft.Sourced`: operations were given only values and string constants that earlier ones gave
  out.
* **`Draft.perform_run_ne_malformed`**: a module that was built so and passes its check (`verify`)
  never fails as malformed.
-/

namespace FlowLang

/-! ## What a well-typed module is -/

/-- An instruction of the graph computes the value. -/
def Graph.Computes (g : Graph) (v : Value) : Prop := ∃ ins ∈ g.instrs, ins.dest? = some v

/-- Everything is well formed, reads values that are computed somewhere, and each number is that of
one value. -/
structure Module.WellTyped (m : Module) : Prop where
  instrs : ∀ ins ∈ m.graph.instrs, ins.WellFormed m ∧ ∀ v ∈ ins.reads, m.graph.Computes v
  exits : ∀ block ∈ m.graph.blocks, ∃ t, block.exit? = some t ∧ t.WellFormed m ∧
    ∀ v ∈ t.reads, m.graph.Computes v
  unique : ∀ v w, m.graph.Computes v → m.graph.Computes w → v.index = w.index → v = w

variable {W : Type}

/-- The slots hold what their types say, and so do the values of the module that are there. -/
structure Consistent (m : Module) (μ : Machine W) : Prop where
  typed : Typed m μ
  values : ∀ v, m.graph.Computes v → ∀ s, μ.values[v.index]? = some s → s.Fits m.strings v.ty

/-! ## Instructions that read a missing value -/

namespace Exec

variable {μ : Machine W} {v : Value}

theorem read_missing (h : μ.values[v.index]? = none) :
    read v μ = .error (.undefinedValue v.index) μ := by
  rw [read_apply, h]

theorem readNumber_missing (h : μ.values[v.index]? = none) :
    readNumber v μ = .error (.undefinedValue v.index) μ := by
  unfold readNumber
  rw [bind_apply, read_missing h]

theorem readTruth_missing (h : μ.values[v.index]? = none) :
    readTruth v μ = .error (.undefinedValue v.index) μ := by
  unfold readTruth
  rw [bind_apply, read_missing h]

/-- Two operands are read one after the other, and one of them is missing. -/
theorem both_missing {α β : Type} {read : Value → ExecInto W α} {f : α → α → ExecInto W β}
    {lhs rhs : Value}
    (hm : ∀ v : Value, μ.values[v.index]? = none → read v μ = .error (.undefinedValue v.index) μ)
    (hl : ∀ s, μ.values[lhs.index]? = some s → ∃ a, read lhs μ = .ok a μ)
    (h : μ.values[lhs.index]? = none ∨ μ.values[rhs.index]? = none) :
    ∃ i, (do let x ← read lhs; let y ← read rhs; f x y) μ = .error (.undefinedValue i) μ := by
  cases hv : μ.values[lhs.index]? with
  | none => exact ⟨lhs.index, by rw [bind_apply, hm lhs hv]⟩
  | some s =>
    obtain ⟨a, ha⟩ := hl s hv
    have hr : μ.values[rhs.index]? = none := by
      rcases h with h | h
      · rw [hv] at h
        cases h
      · exact h
    refine ⟨rhs.index, ?_⟩
    rw [bind_apply, ha]
    dsimp only
    rw [bind_apply, hm rhs hr]

end Exec

variable [Writer W]

/-- An instruction that reads a missing value says so, if those before it are of their types. -/
theorem Instr.exec_missing {m : Module} {i : Instr} {μ : Machine W} (hw : i.WellFormed m)
    (hr : ∀ v ∈ i.reads, ∀ s, μ.values[v.index]? = some s → s.Fits m.strings v.ty)
    (hm : ∃ v ∈ i.reads, μ.values[v.index]? = none) :
    ∃ j, Exec.instr m i μ = .error (.undefinedValue j) μ := by
  -- what is there provides its value, and can be read
  have hnumber : ∀ v ∈ i.reads, v.ty = .number → ∀ s, μ.values[v.index]? = some s →
      ∃ x, Exec.readNumber v μ = .ok x μ := by
    intro v hv ht s hs
    obtain ⟨x, hx⟩ := Provides.eq_number ⟨s, hs, hr v hv s hs⟩ ht
    exact ⟨x, Exec.readNumber_of hx⟩
  have htruth : ∀ v ∈ i.reads, v.ty = .truth → ∀ s, μ.values[v.index]? = some s →
      ∃ b, Exec.readTruth v μ = .ok b μ := by
    intro v hv ht s hs
    obtain ⟨b, hb⟩ := Provides.eq_truth ⟨s, hs, hr v hv s hs⟩ ht
    exact ⟨b, Exec.readTruth_of hb⟩
  obtain ⟨v, hv, hnone⟩ := hm
  cases i with
  | constant dest x => cases hv
  | string dest id => cases hv
  | load dest slot => cases hv
  | store slot u =>
    obtain rfl := List.mem_singleton.mp hv
    exact ⟨v.index, by rw [Exec.instr, bind_apply, Exec.read_missing hnone]⟩
  | arithmetic dest op lhs rhs =>
    refine Exec.both_missing (fun _ => Exec.readNumber_missing)
      (hnumber lhs List.mem_cons_self hw.2.1) ?_
    rcases List.mem_pair.mp hv with rfl | rfl
    · exact .inl hnone
    · exact .inr hnone
  | compare dest op lhs rhs =>
    refine Exec.both_missing (fun _ => Exec.readNumber_missing)
      (hnumber lhs List.mem_cons_self hw.2.1) ?_
    rcases List.mem_pair.mp hv with rfl | rfl
    · exact .inl hnone
    · exact .inr hnone
  | connect dest op lhs rhs =>
    refine Exec.both_missing (fun _ => Exec.readTruth_missing)
      (htruth lhs List.mem_cons_self hw.2.1) ?_
    rcases List.mem_pair.mp hv with rfl | rfl
    · exact .inl hnone
    · exact .inr hnone
  | negate dest u =>
    obtain rfl := List.mem_singleton.mp hv
    exact ⟨v.index, by rw [Exec.instr, bind_apply, Exec.readTruth_missing hnone]⟩
  | call callee args =>
    obtain ⟨u, rfl, -⟩ := hw
    obtain rfl := List.mem_singleton.mp hv
    exact ⟨v.index, by rw [Exec.instr, Exec.call, bind_apply, Exec.read_missing hnone]⟩

/-! ## Runs -/

/-- The run is inside the module, and the machine holds what its types say. -/
structure Config.Coherent (m : Module) (c : Config W) : Prop where
  block : c.block ∈ m.graph.blocks
  rest : c.rest <:+ c.block.instrs
  machine : Consistent m c.machine

omit [Writer W] in
/-- What an instruction of the module wrote is of its type. -/
theorem Consistent.wrote {m : Module} {μ μ' : Machine W} {ins : Instr} (h : Consistent m μ)
    (hm : m.WellTyped) (hins : ins ∈ m.graph.instrs) (ht : Typed m μ')
    (hw : Wrote m μ ins.dest? μ') : Consistent m μ' := by
  refine ⟨ht, fun v hv s hs => ?_⟩
  cases hd : ins.dest? with
  | none =>
    rw [hd] at hw
    rw [show μ'.values = _ from hw] at hs
    exact h.values v hv s hs
  | some dest =>
    rw [hd] at hw
    obtain ⟨s', hfit, hvalues⟩ := hw
    have hdef := μ.define_values dest s' v.index
    rw [Machine.define, ← hvalues, hs] at hdef
    by_cases hi : dest.index = v.index
    · -- only one value has the number
      rw [if_pos hi] at hdef
      obtain rfl := hm.unique dest v ⟨ins, hins, hd⟩ hv hi
      cases hdef
      exact hfit
    · rw [if_neg hi] at hdef
      exact h.values v hv s hdef.symm

namespace Config.Coherent

variable {m : Module} {c : Config W}

omit [Writer W] in
theorem mem_instrs {i : Instr} {rest : List Instr} (h : c.Coherent m) (hr : c.rest = i :: rest) :
    i ∈ m.graph.instrs := by
  have hi : i ∈ c.rest := by simp [hr]
  exact List.mem_flatMap.mpr ⟨c.block, h.block, h.rest.subset hi⟩

omit [Writer W] in
/-- Where nothing is missing, the next step is sound. -/
theorem sound (h : c.Coherent m) (hm : m.WellTyped)
    (hp : ∀ v ∈ c.reads, ∃ s, c.machine.values[v.index]? = some s) : c.Sound m := by
  refine ⟨h.machine.typed, fun i rest hr => (hm.instrs i (h.mem_instrs hr)).1, fun hr => ?_,
    fun v hv => ?_⟩
  · obtain ⟨t, he, hw, -⟩ := hm.exits c.block h.block
    exact ⟨t, he, hw⟩
  · obtain ⟨s, hs⟩ := hp v hv
    refine ⟨s, hs, h.machine.values v ?_ s hs⟩
    cases hr : c.rest with
    | cons i rest =>
      rw [Config.reads_cons hr] at hv
      exact (hm.instrs i (h.mem_instrs hr)).2 v hv
    | nil =>
      obtain ⟨t, he, -, hc⟩ := hm.exits c.block h.block
      rw [Config.reads_nil hr he] at hv
      exact hc v hv

/-- Where something is missing, the run ends and says so. -/
theorem step_missing (h : c.Coherent m) (hm : m.WellTyped)
    (hp : ∃ v ∈ c.reads, c.machine.values[v.index]? = none) :
    ∃ j μ, m.step c = .ended (.error (.undefinedValue j)) μ := by
  obtain ⟨v, hv, hnone⟩ := hp
  cases hr : c.rest with
  | cons i rest =>
    rw [Config.reads_cons hr] at hv
    obtain ⟨hw, hc⟩ := hm.instrs i (h.mem_instrs hr)
    obtain ⟨j, he⟩ :=
      Instr.exec_missing hw (fun u hu => h.machine.values u (hc u hu)) ⟨v, hv, hnone⟩
    exact ⟨j, _, Module.step_instr_error hr he⟩
  | nil =>
    obtain ⟨t, he, -, -⟩ := hm.exits c.block h.block
    rw [Config.reads_nil hr he] at hv
    cases t with
    | jump k => cases hv
    | ret code => cases hv
    | branch test yes no =>
      obtain rfl := List.mem_singleton.mp hv
      refine ⟨v.index, c.machine, ?_⟩
      have hl : Exec.leave c.block c.machine = .error (.undefinedValue v.index) c.machine := by
        unfold Exec.leave
        rw [he]
        dsimp only
        rw [bind_apply, Exec.readTruth_missing hnone]
      simp only [Module.step, hr, hl]

/-- **A step of a well-typed module** leads on inside the module, or ends the run, and not because
the module makes no sense. -/
theorem step (h : c.Coherent m) (hm : m.WellTyped) :
    (∃ c', m.step c = .next c' ∧ c'.Coherent m) ∨
      ∃ result μ, m.step c = .ended result μ ∧ ∀ reason, result ≠ .error (.malformed reason) := by
  by_cases hp : ∃ v ∈ c.reads, c.machine.values[v.index]? = none
  · obtain ⟨j, μ, he⟩ := h.step_missing hm hp
    exact .inr ⟨_, μ, he, fun _ => by simp⟩
  · have hs : c.Sound m := h.sound hm fun v hv => by
      cases hval : c.machine.values[v.index]? with
      | none => exact absurd ⟨v, hv, hval⟩ hp
      | some s => exact ⟨s, rfl⟩
    have hstop : c.Stops m → ∃ result μ, m.step c = .ended result μ ∧
        ∀ reason, result ≠ .error (.malformed reason) := by
      rintro ⟨result, μ, he, hne⟩
      exact ⟨result, μ, he, fun reason hr => hne _ hr trivial⟩
    cases hr : c.rest with
    | cons i rest =>
      rcases hs.instr_step hr with ⟨μ, he, ht, hw⟩ | hend
      · refine .inl ⟨_, he, h.block, ?_, h.machine.wrote hm (h.mem_instrs hr) ht hw⟩
        have hsuf := h.rest
        rw [hr] at hsuf
        exact (List.suffix_cons i rest).trans hsuf
      · exact .inr (hstop hend)
    | nil =>
      obtain ⟨t, he, -, -⟩ := hm.exits c.block h.block
      rcases hs.exit_step hr he with ⟨k, -, c', hn, ⟨hk, hrest⟩, hmach⟩ | hend
      · exact .inl ⟨c', hn, List.mem_of_getElem? hk, by rw [hrest], by rw [hmach]; exact h.machine⟩
      · exact .inr (hstop hend)

omit [Writer W] in
/-- A run starts with nothing in the machine. -/
theorem start {block : Block} (hb : block ∈ m.graph.blocks) (w : W) :
    Config.Coherent m ⟨block, block.instrs, m.machineInto w⟩ := by
  refine ⟨hb, List.suffix_refl _, fun i slot hi => ⟨none, ?_, ?_⟩, fun v _ s hs => ?_⟩
  · show (m.graph.slots.map fun _ => none)[i]? = some none
    rw [List.getElem?_map, hi]
    rfl
  · intro s hs
    cases hs
  · have hempty : (m.machineInto w).values[v.index]? = none := Std.TreeMap.getElem?_emptyc
    rw [show _ = some s from hs] at hempty
    cases hempty

/-- Every point of a run of a well-typed module is coherent. -/
theorem steps (h : c.Coherent m) (hm : m.WellTyped) {k : Nat} {c' : Config W}
    (hs : m.Steps k c c') : c'.Coherent m := by
  induction hs with
  | refl c => exact h
  | head hc _ ih =>
    rcases h.step hm with ⟨c₁, hn, h₁⟩ | ⟨result, μ, he, -⟩
    · rw [hc] at hn
      cases hn
      exact ih h₁
    · rw [hc] at he
      cases he

end Config.Coherent

/-- **A well-typed module never fails as malformed.** -/
theorem Module.WellTyped.runInto_ne_malformed {m : Module} (hm : m.WellTyped)
    (hne : m.graph.blocks ≠ []) (limit : Nat) (w : W) (reason : Malformed) :
    (m.runInto limit w).result ≠ .error (.malformed reason) := by
  obtain ⟨block, hblock⟩ : ∃ block, m.graph.blocks[0]? = some block :=
    ⟨_, List.getElem?_eq_getElem (List.length_pos_of_ne_nil hne)⟩
  have hstart : m.startFrom? (m.machineInto w) = some _ := congrArg (Option.map _) hblock
  have hcoh := Config.Coherent.start (m := m) (List.mem_of_getElem? hblock) w
  unfold runInto
  rcases runFrom_cases hstart limit with ⟨c', -, hr⟩ | ⟨j, c', result, μ, -, hj, he, hr⟩
  · rw [hr]
    simp
  · rw [hr]
    rcases (hcoh.steps hm hj).step hm with ⟨c'', hn, -⟩ | ⟨result', μ', he', hne'⟩
    · rw [he] at hn
      cases hn
    · rw [he] at he'
      cases he'
      exact hne' reason

/-! ## What operations add -/

variable {N : Type}

/-- All terminators in the order of the blocks. -/
def Graph.exits (g : Graph) : List Terminator := g.blocks.flatMap (·.exit?.toList)

theorem Graph.mem_exits {g : Graph} {block : Block} {t : Terminator} (hb : block ∈ g.blocks)
    (ht : block.exit? = some t) : t ∈ g.exits :=
  List.mem_flatMap.mpr ⟨block, hb, by simp [ht]⟩

namespace Builder

variable {b : Builder N} {i : Nat} {block : Block}

theorem instrs_push (hb : b.graph.blocks[i]? = some block) (ins : Instr) :
    (b.push i ins).graph.instrs.Perm (ins :: b.graph.instrs) :=
  flatMap_modify_perm [ins] hb List.perm_append_comm

theorem instrs_close (hb : b.graph.blocks[i]? = some block) (t : Terminator) :
    (b.close i t).graph.instrs.Perm b.graph.instrs :=
  flatMap_modify_perm [] hb (.refl _)

theorem instrs_addBlocks (b : Builder N) (labels : List String) :
    (b.addBlocks labels).graph.instrs = b.graph.instrs := by
  simp [Graph.instrs, addBlocks]

theorem exits_push (hb : b.graph.blocks[i]? = some block) (ins : Instr) :
    (b.push i ins).graph.exits.Perm b.graph.exits :=
  flatMap_modify_perm [] hb (.refl _)

theorem exits_close (hb : b.graph.blocks[i]? = some block) (ho : block.exit? = none)
    (t : Terminator) : (b.close i t).graph.exits.Perm (t :: b.graph.exits) :=
  flatMap_modify_perm [t] hb (by simp [ho])

theorem exits_addBlocks (b : Builder N) (labels : List String) :
    (b.addBlocks labels).graph.exits = b.graph.exits := by
  simp [Graph.exits, addBlocks]

end Builder

namespace Draft.Step

variable [Counter N] {d d' : Draft N} {op : Operation} {reply : Reply}

/-- An operation adds no instruction but its own, and that has the right types. -/
theorem instrs (h : d.Step op reply d') :
    ∀ ins ∈ d'.builder.graph.instrs, ins ∈ d.builder.graph.instrs ∨
    (∃ dest, op.instr? dest = some ins) ∧ ins.Suits d.builder.graph.slots := by
  intro ins hins
  cases h with
  | intern text => exact .inl hins
  | createBlock label =>
    rw [Builder.instrs_addBlocks] at hins
    exact .inl hins
  | switchTo hi => exact .inl hins
  | createSlot name ty => exact .inl hins
  | slotType hi => exact .inl hins
  | defines hop _ hw h =>
    obtain ⟨-, i, ⟨-, block, hb, -⟩, rfl⟩ := h
    rcases List.mem_cons.mp ((Builder.instrs_push hb _).mem_iff.mp hins) with rfl | hold
    · exact .inr ⟨⟨_, hop⟩, hw⟩
    · exact .inl hold
  | emits hop _ hw h =>
    obtain ⟨i, ⟨-, block, hb, -⟩, rfl⟩ := h
    rcases List.mem_cons.mp ((Builder.instrs_push hb _).mem_iff.mp hins) with rfl | hold
    · exact .inr ⟨⟨⟨0, .number⟩, hop _⟩, hw⟩
    · exact .inl hold
  | ends _ _ h =>
    obtain ⟨-, i, ⟨-, block, hb, -⟩, rfl⟩ := h
    exact .inl ((Builder.instrs_close hb _).mem_iff.mp hins)

/-- An operation adds no terminator but its own, and that tests a truth value. -/
theorem exits (h : d.Step op reply d') : ∀ t ∈ d'.builder.graph.exits, t ∈ d.builder.graph.exits ∨
    op.exit? = some t ∧ ∀ v ∈ t.reads, v.ty = .truth := by
  intro t ht
  cases h with
  | intern text => exact .inl ht
  | createBlock label =>
    rw [Builder.exits_addBlocks] at ht
    exact .inl ht
  | switchTo hi => exact .inl ht
  | createSlot name ty => exact .inl ht
  | slotType hi => exact .inl ht
  | defines _ _ _ h =>
    obtain ⟨-, i, ⟨-, block, hb, -⟩, rfl⟩ := h
    exact .inl ((Builder.exits_push hb _).mem_iff.mp ht)
  | emits _ _ _ h =>
    obtain ⟨i, ⟨-, block, hb, -⟩, rfl⟩ := h
    exact .inl ((Builder.exits_push hb _).mem_iff.mp ht)
  | ends hop htruth h =>
    obtain ⟨-, i, ⟨-, block, hb, ho⟩, rfl⟩ := h
    rcases List.mem_cons.mp ((Builder.exits_close hb ho _).mem_iff.mp ht) with rfl | hold
    · exact .inr ⟨hop, htruth⟩
    · exact .inl hold

/-- String constants are only added, and one that was interned is there. -/
theorem strings (h : d.Step op reply d') : d.strings <+: d'.strings ∧
    ∀ text id, op = .intern text → reply = .index id → id < d'.strings.length := by
  cases h with
  | intern text =>
    refine ⟨d.interner.texts_prefix_intern text, ?_⟩
    rintro _ _ ⟨⟩ ⟨⟩
    exact (List.getElem?_eq_some_iff.mp (d.interner.getElem?_intern text)).1
  | createBlock label => exact ⟨List.prefix_refl _, nofun⟩
  | switchTo hi => exact ⟨List.prefix_refl _, nofun⟩
  | createSlot name ty => exact ⟨List.prefix_refl _, nofun⟩
  | slotType hi => exact ⟨List.prefix_refl _, nofun⟩
  | defines _ _ _ _ => exact ⟨List.prefix_refl _, fun _ _ _ h => by cases h⟩
  | emits _ _ _ _ => exact ⟨List.prefix_refl _, fun _ _ _ h => by cases h⟩
  | ends _ _ _ => exact ⟨List.prefix_refl _, fun _ _ _ h => by cases h⟩

end Draft.Step

namespace Draft

/-! ## Operands that were given out -/

/-- The string constant in the answer to an operation. -/
def Exchange.string? : Exchange → Option Nat
  | (.intern _, .ok (.index id)) => some id
  | _ => none

/-- The string constants that operations gave, in order. -/
def interned (past : List Exchange) : List Nat := past.filterMap Exchange.string?

/-- The operation failed, or all that it was given comes from the answers so far. -/
def Exchange.SourcedIn (past : List Exchange) (x : Exchange) : Prop :=
  x.2.isOk → (∀ v ∈ x.1.operands, v ∈ returned past) ∧ ∀ id ∈ x.1.strings, id ∈ interned past

instance (past : List Exchange) (x : Exchange) : Decidable (x.SourcedIn past) :=
  inferInstanceAs (Decidable (_ → _))

/-- Every operation was given only what the answers before it gave out. -/
def Sourced (past : List Exchange) : Prop :=
  ∀ i (h : i < past.length), past[i].SourcedIn (past.take i)

instance (past : List Exchange) : Decidable (Sourced past) :=
  inferInstanceAs (Decidable (∀ _ _, _))

theorem sourced_concat {past : List Exchange} {x : Exchange} (h : Sourced (past ++ [x])) :
    Sourced past ∧ x.SourcedIn past := by
  constructor
  · intro i hi
    have hx := h i (by rw [List.length_append]; omega)
    rwa [List.getElem_append_left hi, List.take_append_of_le_length hi.le] at hx
  · have hx := h past.length (by simp)
    rwa [List.getElem_concat_length rfl, List.take_left' rfl] at hx

/-- The draft agrees with the answers so far, and everything in it is of the right types and reads
only what is there. -/
structure Tracks [Counter N] (d : Draft N) (past : List Exchange) :
    Prop extends d.Accounts past where
  interned : ∀ id ∈ interned past, id < d.strings.length
  instrs : ∀ ins ∈ d.builder.graph.instrs, ins.Suits d.builder.graph.slots ∧
    (∀ id ∈ ins.strings, id < d.strings.length) ∧ ∀ v ∈ ins.reads, d.builder.graph.Computes v
  exits : ∀ t ∈ d.builder.graph.exits, ∀ v ∈ t.reads, v.ty = .truth ∧ d.builder.graph.Computes v

namespace Tracks

variable [Counter N] {d d' : Draft N} {past : List Exchange} {op : Operation}

theorem error (h : d.Tracks past) (e : GraphFault) : d.Tracks (past ++ [(op, .error e)]) := by
  refine ⟨h.toAccounts.error e, ?_, h.instrs, h.exits⟩
  have hr : Draft.interned (past ++ [(op, .error e)]) = Draft.interned past := by
    simp [Draft.interned, Exchange.string?]
  rw [hr]
  exact h.interned

theorem step {reply : Reply} (h : d.Tracks past) (hs : d.Step op reply d')
    (hx : Exchange.SourcedIn past (op, .ok reply)) : d'.Tracks (past ++ [(op, .ok reply)]) := by
  obtain ⟨hoperands, hstrings⟩ := hx rfl
  obtain ⟨hgrow, hnew⟩ := hs.strings
  have hcomputes : ∀ v, d.builder.graph.Computes v → d'.builder.graph.Computes v := by
    rintro v ⟨ins, hins, hd⟩
    exact ⟨ins, hs.extends_graph.mem_instrs hins, hd⟩
  have hgiven : ∀ v ∈ op.operands, d'.builder.graph.Computes v :=
    fun v hv => hcomputes v (h.defined v (hoperands v hv))
  have hlength : ∀ id, id < d.strings.length → id < d'.strings.length :=
    fun id hid => hid.trans_le hgrow.length_le
  refine ⟨h.toAccounts.step hs, fun id hid => ?_, fun ins hins => ?_, fun t ht v hv => ?_⟩
  · obtain ⟨x, hx, hxid⟩ := List.mem_filterMap.mp hid
    rcases List.mem_append.mp hx with hx | hx
    · exact hlength id (h.interned id (List.mem_filterMap.mpr ⟨x, hx, hxid⟩))
    · obtain rfl := List.mem_singleton.mp hx
      unfold Exchange.string? at hxid
      split at hxid
      · rename_i heq
        cases hxid
        cases heq
        exact hnew _ _ rfl rfl
      · cases hxid
  · rcases hs.instrs ins hins with hold | ⟨⟨dest, hop⟩, hsuits⟩
    · obtain ⟨hsuits, hids, hreads⟩ := h.instrs ins hold
      exact ⟨hsuits.mono hs.extends_graph.slots, fun id hid => hlength id (hids id hid),
        fun v hv => hcomputes v (hreads v hv)⟩
    · obtain ⟨hreads, hids⟩ := Operation.reads_instr? hop
      rw [hreads, hids]
      exact ⟨hsuits.mono hs.extends_graph.slots,
        fun id hid => hlength id (h.interned id (hstrings id hid)), hgiven⟩
  · rcases hs.exits t ht with hold | ⟨hop, htruth⟩
    · exact ⟨(h.exits t hold v hv).1, hcomputes v (h.exits t hold v hv).2⟩
    · refine ⟨htruth v hv, hgiven v ?_⟩
      rwa [← Operation.reads_exit? hop]

/-- A draft that is tracked and checks is a well-typed module. -/
theorem wellTyped (h : d.Tracks past) (hn : Counter.Reaches N (returned past).length)
    (hv : d.builder.graph.verify = .ok ()) (title : String) : (d.toModule title).WellTyped := by
  refine ⟨fun ins hins => ?_, fun block hb => ?_, ?_⟩
  · obtain ⟨hsuits, hids, hreads⟩ := h.instrs ins hins
    exact ⟨hsuits _ (List.prefix_refl _) hids, hreads⟩
  · obtain ⟨t, ht, htargets⟩ := Graph.verify_eq_ok.mp hv block hb
    have hreads := h.exits t (Graph.mem_exits hb ht)
    exact ⟨t, ht, ⟨fun v hv => (hreads v hv).1, htargets⟩, fun v hv => (hreads v hv).2⟩
  · rintro v w ⟨ins, hins, hdv⟩ ⟨ins', hins', hdw⟩ hi
    -- the two instructions are the only one of their number
    have hone := Graph.filter_eq_singleton (h.nodup hn) hins (b := v.index)
      (by simp [Instr.number?, hdv])
    have htwo := Graph.filter_eq_singleton (h.nodup hn) hins' (b := v.index)
      (by simp [Instr.number?, hdw, hi])
    obtain rfl := List.singleton_inj.mp (hone.symm.trans htwo)
    rw [hdv] at hdw
    exact Option.some_inj.mp hdw

end Tracks

variable [Counter N]

theorem tracks_perform {name : String} {ops : List Operation}
    (h : Sourced ((start name : Draft N).record ops)) :
    ((start name : Draft N).perform ops).Tracks ((start name : Draft N).record ops) := by
  induction ops using List.reverseRecOn with
  | nil =>
    exact ⟨accounts_perform name [], List.forall_mem_nil _, List.forall_mem_nil _,
      List.forall_mem_nil _⟩
  | append_singleton ops op ih =>
    rw [record_concat] at h
    obtain ⟨hpast, hlast⟩ := sourced_concat h
    rw [perform_concat, record_concat]
    rcases ((start name : Draft N).perform ops).apply_cases op with ⟨e, he⟩ | ⟨reply, d', he, hs⟩
    · rw [he]
      exact (ih hpast).error e
    · rw [he] at hlast ⊢
      exact (ih hpast).step hs hlast

/-- **Modules that were built from what was given out are sound.** If the operations that succeeded
were given only values and string constants that earlier operations gave, the register has numbered
all values without starting again, and the graph has a block and passes its check, then a run of the
module never fails as malformed, whatever its limit and its writer.

A 32-bit word numbers up to `2 ^ 32` values without starting again (`Counter.reaches_word`). -/
theorem perform_run_ne_malformed {name : String} {ops : List Operation}
    (hs : Sourced ((start name : Draft N).record ops))
    (hn : Counter.Reaches N (returned ((start name : Draft N).record ops)).length)
    (hne : ((start name : Draft N).perform ops).builder.graph.blocks ≠ [])
    (hv : ((start name : Draft N).perform ops).builder.graph.verify = .ok ())
    (title : String) {W : Type} [Writer W] (limit : Nat) (w : W) (reason : Malformed) :
    ((((start name : Draft N).perform ops).toModule title).runInto limit w).result ≠
      .error (.malformed reason) :=
  ((tracks_perform hs).wellTyped hn hv title).runInto_ne_malformed hne limit w reason

/-- The entry skips a block, and what comes next compares with a value that only that block
computes. Three of the operations fail. -/
def skipping : List Operation :=
  [.createBlock "entry", .createBlock "skipped", .createBlock "loop", .createSlot "x" .number,
    .intern "text", .switchTo 1, .constant .one, .store 0 ⟨0, .number⟩, .store 1 ⟨0, .number⟩,
    .string 0, .call .number ⟨1, .pointer⟩, .jump 2, .switchTo 0, .constant .one,
    .store 0 ⟨2, .number⟩, .jump 2, .ret 0, .switchTo 2, .load 0, .call .number ⟨3, .number⟩,
    .compare .lt ⟨3, .number⟩ ⟨0, .number⟩, .branch ⟨4, .truth⟩ 2 1]

theorem skipping_run_ne_malformed :
    let d : Draft UInt32 := (start "main").perform skipping
    let past := (start "main" : Draft UInt32).record skipping
    Sourced past ∧ Counter.Reaches UInt32 (returned past).length ∧
    d.builder.graph.verify = .ok () ∧
    ((d.toModule "m").run 100 none).result = .error (.undefinedValue 0) ∧
    ∀ (W : Type) [Writer W] (limit : Nat) (w : W) reason,
      ((d.toModule "m").runInto limit w).result ≠ .error (.malformed reason) := by
  have hs : Sourced ((start "main" : Draft UInt32).record skipping) := by decide +kernel
  have hn :
      Counter.Reaches UInt32 (returned ((start "main" : Draft UInt32).record skipping)).length :=
    Counter.reaches_word.mpr (by decide +kernel)
  have hv : ((start "main" : Draft UInt32).perform skipping).builder.graph.verify = .ok () := by
    decide +kernel
  exact ⟨hs, hn, hv, by decide +kernel, fun W _ =>
    perform_run_ne_malformed hs hn (by decide +kernel) hv "m"⟩

end Draft

end FlowLang
