import FlowLang.Proofs.TypeSoundness
import FlowLang.Proofs.GraphShape

/-!
# String constants

A text gets a place in the table of string constants (`intern_string`) when it is first asked for,
and keeps it.

* `internAll texts strings`: the table after some texts. From the empty table it is the texts
  without repetitions, in the order in which they first occur (`internAll_nil`).
* `Draft.strings_perform`: the table of a draft, whatever operations were done.
* `Tree.literals`: the texts of a tree from left to right. A declaration of a text counts as an
  empty one.
* `Lowering.Writes`: what lowering does to the table and to the instructions that name its entries.
* `Object.mem_symbolsOf`, `Object.filter_symbolsOf`: the data of an object file.
* **`Tree.lower_strings`** puts these together.
-/

namespace FlowLang

/-! ## The table -/

/-- The table after some texts were asked for. -/
def internAll (texts strings : List String) : List String :=
  texts.foldl (fun strings text => if text ∈ strings then strings else strings ++ [text]) strings

theorem internAll_append (texts more strings : List String) :
    internAll (texts ++ more) strings = internAll more (internAll texts strings) :=
  List.foldl_append

theorem strings_prefix_internAll (texts strings : List String) :
    strings <+: internAll texts strings := by
  induction texts generalizing strings with
  | nil => exact List.prefix_refl _
  | cons text texts ih =>
    refine List.IsPrefix.trans ?_ (ih _)
    dsimp only
    split
    · exact List.prefix_refl _
    · exact List.prefix_append _ _

/-- **The table holds each text once, in the order in which they were first asked for.** -/
theorem internAll_nil (texts : List String) : internAll texts [] = texts.eraseDups := by
  induction texts using List.reverseRecOn with
  | nil => rfl
  | append_singleton texts text ih =>
    rw [internAll_append, ih, List.eraseDups_append]
    by_cases h : text ∈ texts <;>
      simp [internAll, h, List.cons_removeAll, List.mem_eraseDups, List.eraseDups_cons]

/-- An interner goes on as its list of texts says. -/
theorem Interner.texts_intern_eq (t : Interner) (text : String) :
    (t.intern text).2.texts = internAll [text] t.texts := t.texts_intern text

/-! ## Drafts -/

/-- The text for which an operation asks. -/
def Operation.text? : Operation → Option String
  | .intern text => some text
  | _ => none

variable {N : Type} [Counter N]

namespace Draft

omit [Counter N] in
theorem strings_build {α : Type} (d : Draft N) (step : Build N α) (reply : α → Reply) :
    (d.build step reply).2.strings = d.strings := by
  unfold build
  split <;> rfl

theorem strings_apply (d : Draft N) (op : Operation) :
    (d.apply op).2.strings = internAll op.text?.toList d.strings := by
  cases op with
  | intern text => exact d.interner.texts_intern_eq text
  | _ => exact strings_build ..

theorem strings_perform (d : Draft N) (ops : List Operation) :
    (d.perform ops).strings = internAll (ops.filterMap Operation.text?) d.strings := by
  induction ops generalizing d with
  | nil => rfl
  | cons op ops ih =>
    show ((d.apply op).2.perform ops).strings = _
    rw [ih, strings_apply, ← internAll_append]
    cases h : op.text? <;> simp [h]

/-- A number that was given for a text stays the number of that text. -/
theorem getElem?_of_record {d : Draft N} {ops : List Operation} {text : String}
    {reply : Except GraphFault Reply} (h : (.intern text, reply) ∈ d.record ops) :
    ∃ id, reply = .ok (.index id) ∧ (d.perform ops).strings[id]? = some text := by
  induction ops generalizing d with
  | nil => cases h
  | cons op ops ih =>
    rcases List.mem_cons.mp h with h | h
    · cases h
      refine ⟨_, rfl, ?_⟩
      show ((d.apply (.intern text)).2.perform ops).strings[_]? = _
      rw [strings_perform]
      exact getElem?_of_isPrefix (strings_prefix_internAll _ _) (d.interner.getElem?_intern text)
    · exact ih h

end Draft

/-! ## Trees -/

/-- The text that a node puts into the table. -/
def Node.text? : Node → Option String
  | .text s => some s
  | .declare _ .text => some ""
  | _ => none

namespace Tree

/-- The texts of a tree from left to right. -/
def literals (t : Tree) : List String := t.preorder.filterMap (·.node.text?)

theorem literals_mk (n : Node) (ts : List Tree) :
    (mk n ts).literals = n.text?.toList ++ ts.flatMap literals := by
  have hroot : [mk n ts].filterMap (·.node.text?) = n.text?.toList := by
    cases h : n.text? with
    | none => exact List.filterMap_cons_none h
    | some text => exact List.filterMap_cons_some h
  rw [literals, preorder, preorderAll_eq, ← List.singleton_append, List.filterMap_append, hroot,
    List.filterMap_flatMap]
  rfl

theorem literals_next (t : Tree) (ts : List Tree) :
    (mk .block (t :: ts)).literals = t.literals ++ (mk .block ts).literals := by
  simp [literals_mk, Node.text?]

/-- A node with one child and no text of its own. -/
theorem literals_single {n : Node} (hn : n.text? = none) (t : Tree) :
    (mk n [t]).literals = t.literals := by
  simp [literals_mk, hn]

theorem literals_first (x : String) (kind : Kind) :
    (mk (.declare x kind) []).literals = kind.first.literals := by
  cases kind <;> simp [literals_mk, Node.text?, Kind.first]

theorem literals_stepped (k : Step) (x : String) (e : Tree) :
    (stepped k x e).literals = (mk (k.node x) [e]).literals := by
  unfold stepped
  cases k <;> simp [literals_mk, Step.node, Node.text?]

end Tree

/-- The number of the value and of the text, if an instruction gives the address of a text. -/
def Instr.stringUse? : Instr → Option (Nat × Nat)
  | .string dest id => some (dest.index, id)
  | _ => none

/-- The instructions of a graph that give the address of a text. -/
def Graph.stringUses (g : Graph) : List (Nat × Nat) := g.instrs.filterMap Instr.stringUse?

namespace Builder

/-- `b'` has no more instructions that give the address of a text than `b`. -/
structure Quiet (b b' : Builder) : Prop where
  next : b.nextValue ≤ b'.nextValue
  uses : b'.graph.stringUses.Perm b.graph.stringUses

variable {b b' b'' : Builder}

theorem Quiet.trans (h : b.Quiet b') (h' : b'.Quiet b'') : b.Quiet b'' :=
  ⟨h.next.trans h'.next, h'.uses.trans h.uses⟩

theorem stringUses_push {i : Nat} (hi : b.OpenAt i) (ins : Instr) :
    (b.push i ins).graph.stringUses.Perm (ins.stringUse?.toList ++ b.graph.stringUses) := by
  obtain ⟨-, block, hb, -⟩ := hi
  refine ((instrs_push hb ins).filterMap _).trans ?_
  cases h : ins.stringUse? <;> simp [Graph.stringUses, h]

theorem Emits.quiet {ins : Instr} (h : b.Emits ins b') (hins : ins.stringUse? = none) :
    b.Quiet b' := by
  obtain ⟨i, hi, rfl⟩ := h
  have hp := stringUses_push hi ins
  rw [hins] at hp
  exact ⟨le_refl _, hp⟩

theorem Defines.quiet {v : Value} {ins : Instr} (h : b.Defines v ins b')
    (hins : ins.stringUse? = none) : b.Quiet b' := by
  obtain ⟨-, i, hi, rfl⟩ := h
  have hp := stringUses_push hi ins
  rw [hins] at hp
  exact ⟨Nat.le_succ _, hp⟩

theorem Ends.quiet {t : Terminator} (h : b.Ends t b') : b.Quiet b' := by
  obtain ⟨-, i, ⟨-, block, hb, -⟩, rfl⟩ := h
  exact ⟨le_refl _, (instrs_close hb t).filterMap _⟩

theorem Switches.quiet {t : Terminator} {k : Nat} (h : b.Switches t k b') : b.Quiet b' := by
  obtain ⟨b₁, he, -, rfl⟩ := h
  exact ⟨he.quiet.next, he.quiet.uses⟩

theorem quiet_fork (s : Lowering) (labels : List String) :
    s.builder.Quiet (s.fork labels).builder :=
  ⟨le_refl _, by rw [Graph.stringUses, Lowering.fork, instrs_addBlocks, Graph.stringUses]⟩

theorem quiet_addSlot (b : Builder) (slot : Slot) : b.Quiet (b.addSlot slot) := ⟨le_refl _, .refl _⟩

end Builder

namespace Draft

/-- From `d` to `d'`, the texts were put into the table one after the other, and `uses` are the new
instructions that give their addresses, in the order of the values. -/
structure Writes (d : Draft) (texts : List String) (uses : List (Nat × Nat)) (d' : Draft) :
    Prop where
  strings : d'.strings = internAll texts d.strings
  next : d.builder.nextValue ≤ d'.builder.nextValue
  perm : d'.builder.graph.stringUses.Perm (uses ++ d.builder.graph.stringUses)
  sorted : uses.Pairwise (·.1 < ·.1)
  within : ∀ u ∈ uses, d.builder.nextValue ≤ u.1 ∧ u.1 < d'.builder.nextValue
  named : uses.map (d'.strings[·.2]?) = texts.map some

namespace Writes

variable {d d₁ d₂ : Draft} {texts more : List String} {uses uses' : List (Nat × Nat)} {b : Builder}

/-- Nothing is written by steps that are quiet. -/
theorem of_quiet (h : d.builder.Quiet b) : d.Writes [] [] { d with builder := b } :=
  ⟨rfl, h.next, h.uses, .nil, List.forall_mem_nil _, rfl⟩

theorem trans (h : d.Writes texts uses d₁) (h' : d₁.Writes more uses' d₂) :
    d.Writes (texts ++ more) (uses ++ uses') d₂ := by
  have hprefix : d₁.strings <+: d₂.strings := h'.strings ▸ strings_prefix_internAll more d₁.strings
  refine ⟨?_, h.next.trans h'.next, ?_, ?_, fun u hu => ?_, ?_⟩
  · rw [h'.strings, h.strings, internAll_append]
  · refine (h'.perm.trans (h.perm.append_left uses')).trans ?_
    rw [← List.append_assoc]
    exact List.perm_append_comm.append_right _
  · -- all values of the second part come after those of the first
    refine List.pairwise_append.mpr ⟨h.sorted, h'.sorted, fun u hu w hw => ?_⟩
    exact (h.within u hu).2.trans_le (h'.within w hw).1
  · rcases List.mem_append.mp hu with hu | hu
    · exact ⟨(h.within u hu).1, (h.within u hu).2.trans_le h'.next⟩
    · exact ⟨h.next.trans (h'.within u hu).1, (h'.within u hu).2⟩
  · rw [List.map_append, List.map_append, h'.named, ← h.named]
    congr 1
    refine List.map_congr_left fun u hu => ?_
    have hmem : d₁.strings[u.2]? ∈ texts.map some := h.named ▸ List.mem_map_of_mem hu
    obtain ⟨text, -, ht⟩ := List.mem_map.mp hmem
    rw [← ht]
    exact getElem?_of_isPrefix hprefix ht.symm

/-- Quiet steps may follow. -/
theorem quiet (h : d.Writes texts uses d₁) (hq : d₁.builder.Quiet b) :
    d.Writes texts uses { d₁ with builder := b } := by
  have hw := h.trans (of_quiet hq)
  rwa [List.append_nil, List.append_nil] at hw

end Writes

end Draft

/-- The module as it is now. -/
def Lowering.draft (s : Lowering) : Draft := ⟨s.interner, s.builder⟩

namespace Tree

open Draft.Writes

/-- **Lowering puts the texts of a tree into the table from left to right**, and the instruction of
each names its place. -/
theorem Lowers.writes {t : Tree} {s s' : Lowering} {v : Option Value} (h : t.Lowers s v s') :
    ∃ uses, s.draft.Writes t.literals uses s'.draft := by
  induction h with
  | nothing => exact ⟨[], of_quiet ⟨le_refl _, .refl _⟩⟩
  | last _ ih => rwa [literals_single rfl]
  | next _ _ ih ihs =>
    obtain ⟨uses, hu⟩ := ih
    obtain ⟨uses', hu'⟩ := ihs
    rw [literals_next]
    exact ⟨_, hu.trans hu'⟩
  | program _ ih =>
    rw [literals_mk] at ih ⊢
    exact ih
  | name _ _ _ hd =>
    rw [literals_mk]
    exact ⟨[], of_quiet (hd.quiet rfl)⟩
  | @literal l _ _ _ _ hd =>
    have hl : (mk l.node []).literals = [] := by cases l <;> rfl
    rw [hl]
    exact ⟨[], of_quiet (hd.quiet rfl)⟩
  | @text text s v b _ hd =>
    obtain ⟨hnext, i, hi, rfl⟩ := hd
    refine ⟨[(v.index, (s.interner.intern text).1)], s.interner.texts_intern_eq text, Nat.le_succ _,
      Builder.stringUses_push hi _, List.pairwise_singleton .., ?_, ?_⟩
    · intro u hu
      obtain rfl := List.mem_singleton.mp hu
      exact ⟨hnext.ge, hnext ▸ Nat.lt_succ_self _⟩
    · show [(s.interner.intern text).2.texts[(s.interner.intern text).1]?] = [some text]
      rw [s.interner.getElem?_intern]
  | declare _ _ he ih =>
    obtain ⟨uses, hu⟩ := ih
    rw [literals_first]
    exact ⟨uses, hu.quiet ((Builder.quiet_addSlot _ _).trans (he.quiet rfl))⟩
  | assign _ _ _ _ he ih =>
    obtain ⟨uses, hu⟩ := ih
    rw [literals_single rfl]
    exact ⟨uses, hu.quiet (he.quiet rfl)⟩
  | step _ ih => rwa [← literals_stepped]
  | print _ _ he ih =>
    obtain ⟨uses, hu⟩ := ih
    rw [literals_single rfl]
    exact ⟨uses, hu.quiet (he.quiet rfl)⟩
  | @binary op l r _ _ _ _ _ _ _ _ _ _ _ _ hd ihl ihr =>
    obtain ⟨uses, hl⟩ := ihl
    obtain ⟨uses', hr⟩ := ihr
    have hlit : (mk op.node [l, r]).literals = l.literals ++ r.literals := by
      rw [literals_mk]
      cases op <;> simp [Binary.node, Node.text?]
    rw [hlit]
    exact ⟨_, (hl.trans hr).quiet (hd.quiet (by cases op <;> rfl))⟩
  | negate _ _ _ hd ih =>
    obtain ⟨uses, hu⟩ := ih
    rw [literals_single rfl]
    exact ⟨uses, hu.quiet (hd.quiet rfl)⟩
  | @guarded g c body s _ _ _ _ _ _ _ _ _ h₁ _ _ h₂ _ h₃ ihc ihb =>
    obtain ⟨uses, hc⟩ := ihc
    obtain ⟨uses', hb⟩ := ihb
    have hlit : (mk g.node [c, body]).literals = c.literals ++ body.literals := by
      rw [literals_mk]
      cases g <;> simp [Guard.node, Node.text?]
    rw [hlit]
    have hstart := (of_quiet (d := s.draft) ((Builder.quiet_fork s _).trans h₁.quiet)).trans hc
    exact ⟨_, ((hstart.quiet h₂.quiet).trans hb).quiet h₃.quiet⟩
  | @choice c yes no s _ _ _ _ _ _ _ _ _ _ _ _ h₁ _ _ h₂ _ h₃ _ h₄ ihc ihy ihn =>
    obtain ⟨uses, hc⟩ := ihc
    obtain ⟨uses', hy⟩ := ihy
    obtain ⟨uses'', hn⟩ := ihn
    have hlit : (mk .choice [c, yes, no]).literals = c.literals ++ yes.literals ++ no.literals := by
      rw [literals_mk]
      simp [Node.text?]
    rw [hlit]
    have hstart := (of_quiet (d := s.draft) ((Builder.quiet_fork s _).trans h₁.quiet)).trans hc
    exact ⟨_, ((((hstart.quiet h₂.quiet).trans hy).quiet h₃.quiet).trans hn).quiet h₄.quiet⟩

end Tree

/-! ## Data in object files -/

namespace Object

theorem stringName_eq (i : Nat) : stringName i = "__emj_str" ++ toString i := rfl

theorem stringName_injective : Function.Injective stringName := by
  intro i j h
  rw [stringName_eq, stringName_eq] at h
  exact (numbered_inj (by simp) (by simp) h).2

/-- A name with other letters is not that of a string constant. -/
theorem ne_stringName {name : String} (h : name.toList.filter (!·.isDigit) ≠ "__emj_str".toList)
    (i : Nat) : name ≠ stringName i := by
  rintro rfl
  exact h (by rw [stringName_eq, filter_numbered (by simp)])

theorem stringData_eq (text : String) :
    stringData text = text.toList.flatMap String.utf8EncodeChar ++ [0] := by
  unfold stringData
  rw [String.toUTF8, ← String.utf8Encode_toList, List.utf8Encode, List.data_toByteArray]

/-- Each string constant has one name in the object file, and that stands for its data. -/
theorem filter_symbolsOf {m : Module} (hname : ∀ i, m.graph.name ≠ stringName i) {i : Nat}
    {text : String} (hi : m.strings[i]? = some text) :
    (symbolsOf m).filter (·.1 = stringName i) = [(stringName i, .data (stringData text))] := by
  have hprinters : ∀ p : Printer, p.symbol ≠ stringName i := by
    intro p
    cases p <;> exact ne_stringName (by decide) i
  have hcode : [(Printer.number.symbol, Linkage.imported), (Printer.text.symbol, .imported),
      (m.graph.name, .exported)].filter (·.1 = stringName i) = [] := by
    simp [hname i, hprinters]
  rw [symbolsOf, List.filter_append, hcode, List.nil_append, List.filter_map]
  have hone : m.strings.zipIdx.filter (·.2 = i) = [(text, i)] := by
    have hn : (m.strings.zipIdx.filterMap fun p => some p.2).Nodup := by
      rw [List.filterMap_eq_map', List.zipIdx_map_snd]
      exact List.nodup_range'
    have hmem : (text, i) ∈ m.strings.zipIdx := List.mem_zipIdx_iff_getElem?.mpr hi
    have hf := Graph.filter_eq_singleton hn hmem rfl
    simpa using hf
  have hcongr : ((fun p : String × Linkage => decide (p.1 = stringName i)) ∘
      fun p : String × Nat => (stringName p.2, Linkage.data (stringData p.1))) =
      fun p => decide (p.2 = i) := by
    funext p
    simp [stringName_injective.eq_iff]
  rw [hcongr, hone]
  rfl

theorem mem_symbolsOf {m : Module} {name : String} {bytes : List UInt8}
    (h : (name, .data bytes) ∈ symbolsOf m) : ∃ i < m.strings.length, name = stringName i := by
  unfold symbolsOf at h
  rcases List.mem_append.mp h with h | h
  · simp at h
  · obtain ⟨p, hp, he⟩ := List.mem_map.mp h
    cases he
    exact ⟨p.2, (List.getElem?_eq_some_iff.mp (List.mem_zipIdx_iff_getElem?.mp hp)).1, rfl⟩

end Object

namespace Tree

/-- The object file of a lowered module can always be made. -/
theorem ofModule_lower {t : Tree} {m : Module} (h : t.lower.result = .ok m) :
    Object.ofModule m = .ok ⟨Object.symbolsOf m⟩ := by
  have hverify := lower_verified h
  obtain ⟨v, s, b, hlow, hends, rfl, -⟩ := lower_eq_ok h
  have ho := (hlow.inOrder entry_inOrder).ends hends nofun
  have hne : b.graph.blocks ≠ [] := by
    obtain ⟨block, hb, -⟩ := (hlow.grows.graph.trans hends.extends).blocks 0 _ rfl
    exact List.ne_nil_of_mem (List.mem_of_getElem? hb)
  have hcheck := Object.check_eq_ok.mpr (⟨hverify, hne, ho.strings, ho.slots, ho.ordered⟩ :
    Module.Emittable ⟨"emj", s.strings, b.graph⟩)
  unfold Object.ofModule
  rw [hcheck]
  rfl

/-- **The table of string constants is exact.**

* In a draft, whatever operations were done, it holds the texts that were asked for, each once and
  in the order in which they first were. Every number that was given for a text is the place of that
  text, and the map from texts to numbers, which is all that is looked into, is the inverse of the
  table.
* In a module of a lowered tree, it holds the texts of the tree, each once and in the order in which
  they first occur. The instructions that give addresses of texts, in the order of their values,
  name the places of the texts of the tree from left to right.
* The object file of such a module has one name for each entry, which stands for the bytes of the
  text and a zero byte, and no other data.

The order of the values is that of their numbers as long as the register does not start again. -/
theorem lower_strings {N : Type} [Counter N] :
    (∀ (routine title : String) (ops : List Operation),
      let d : Draft N := (Draft.start routine).perform ops
      let m := d.toModule title
      m.strings = (ops.filterMap Operation.text?).eraseDups ∧
      (∀ (text : String) (id : Nat), d.interner.ids[text]? = some id ↔ m.strings[id]? = some text) ∧
      ∀ text reply, (.intern text, reply) ∈ (Draft.start routine : Draft N).record ops →
        ∃ id, reply = .ok (.index id) ∧ m.strings[id]? = some text) ∧
    ∀ (t : Tree) (m : Module), Counter.Reaches N t.valueCount → (t.lower N).result = .ok m →
      m.strings = t.literals.eraseDups ∧
      (∃ uses, m.graph.stringUses.Perm uses ∧ uses.Pairwise (·.1 < ·.1) ∧
        uses.map (m.strings[·.2]?) = t.literals.map some) ∧
      ∃ o, Object.ofModule m = .ok o ∧
        (∀ (i : Nat) (text : String), m.strings[i]? = some text →
          o.symbols.filter (·.1 = "__emj_str" ++ toString i) =
            [("__emj_str" ++ toString i,
              .data (text.toList.flatMap String.utf8EncodeChar ++ [0]))]) ∧
        ∀ name bytes, (name, .data bytes) ∈ o.symbols →
          ∃ i < m.strings.length, name = "__emj_str" ++ toString i := by
  refine ⟨fun routine title ops => ⟨?_, Interner.inverse _, fun text reply h =>
    Draft.getElem?_of_record h⟩, fun t m hn h => ?_⟩
  · exact (Draft.strings_perform _ ops).trans (internAll_nil _)
  rw [lower_eq_lower hn] at h
  have hobject := ofModule_lower h
  obtain ⟨v, s, b, hlow, hends, rfl, -⟩ := lower_eq_ok h
  obtain ⟨uses, hw⟩ := hlow.writes
  have hname : b.graph.name = "main" := hends.name.trans hlow.graph_name
  refine ⟨hw.strings.trans (internAll_nil _), ⟨uses, ?_, hw.sorted, hw.named⟩, _, hobject,
    fun i text hi => ?_, fun name bytes hmem => ?_⟩
  · refine hends.quiet.uses.trans (hw.perm.trans ?_)
    rw [show Lowering.entry.draft.builder.graph.stringUses = [] from rfl, List.append_nil]
  · rw [← Object.stringName_eq, ← Object.stringData_eq]
    refine Object.filter_symbolsOf (fun j => ?_) hi
    show b.graph.name ≠ _
    rw [hname]
    exact Object.ne_stringName (by decide) j
  · obtain ⟨i, hi, rfl⟩ := Object.mem_symbolsOf hmem
    exact ⟨i, hi, Object.stringName_eq i⟩

/-- A program with five texts, three of them different. -/
def greetings : Tree :=
  let say (s : String) := mk .print [mk (.text s) []]
  mk .program [mk (.declare "s" .text) [],
    mk .choice [mk (.compare .lt) [mk (.integer 1) [], mk (.integer 2) []],
      mk .block [say "é"], mk .block [say "b", say "é"]],
    say ""]

theorem greetings_strings : ∃ m, (greetings.lower UInt32).result = .ok m ∧
    m.strings = ["", "é", "b"] ∧
    (∃ uses, m.graph.stringUses.Perm uses ∧ uses.Pairwise (·.1 < ·.1) ∧
      uses.map (m.strings[·.2]?) = [some "", some "é", some "b", some "é", some ""]) ∧
    ∃ o, Object.ofModule m = .ok o ∧
      o.symbols.filter (·.1 = "__emj_str1") = [("__emj_str1", .data [195, 169, 0])] := by
  have hlit : greetings.literals = ["", "é", "b", "é", ""] := by decide +kernel
  obtain ⟨m, hm⟩ := exists_of_isOk (x := (greetings.lower UInt32).result) (by decide +kernel)
  have hn : Counter.Reaches UInt32 greetings.valueCount :=
    Counter.reaches_word.mpr (by decide +kernel)
  obtain ⟨hstrings, huses, o, ho, hdata, -⟩ := lower_strings.2 greetings m hn hm
  rw [hlit] at hstrings huses
  have htable : m.strings = ["", "é", "b"] := hstrings.trans (by decide +kernel)
  have hbytes : "é".toList.flatMap String.utf8EncodeChar ++ [0] = [195, 169, 0] := by
    decide +kernel
  refine ⟨m, hm, htable, huses, o, ho, ?_⟩
  rw [← hbytes]
  exact hdata 1 "é" (by rw [htable]; rfl)

end Tree

end FlowLang
