import FlowLang.Proofs.Diagnostics
import FlowLang.Proofs.StringTable

/-!
# String constants as data and as output

A linked program gets only the address of a string constant (`define_strings`), and reads its data
up to the first zero byte. The machine prints the whole text (`emj_print_str`).

* `Object.beforeZero`: what is read at an address.
* `Object.beforeZero_stringData`: of the data of a text that is the part before its first zero
  character. No other character has a zero byte in its encoding.
* `Module.Prints`: what the machine prints for a string constant.
* `compile_zero_not_mem`: the zero character is in a string constant only if it is in the source.
* **`compile_stringData`**: what is read is what is printed iff the text has no zero character.
* **`zeroInside_cut`**: a program for which it is not.
-/

namespace FlowLang

/-! ## Data -/

/-- Only the zero character is encoded with a zero byte. -/
theorem zero_mem_utf8EncodeChar {c : Char} : 0 ∈ String.utf8EncodeChar c ↔ c = '\x00' := by
  have hchar : c = '\x00' ↔ c.val.toNat = 0 := by
    rw [← Char.val_inj, ← UInt32.toNat_inj]
    rfl
  have hbyte : ∀ n : Nat, (0 : UInt8) = UInt8.ofNat n ↔ n % 256 = 0 := by
    intro n
    rw [eq_comm, ← UInt8.toNat_inj, UInt8.toNat_ofNat']
    rfl
  rw [hchar, String.utf8EncodeChar]
  split_ifs <;> simp only [List.mem_cons, List.not_mem_nil, or_false, hbyte] <;> omega

namespace Object

/-- The bytes before the first zero byte. -/
def beforeZero (data : List UInt8) : List UInt8 := data.takeWhile (· ≠ 0)

/-- **The data of a text is read up to its first zero character.** -/
theorem beforeZero_stringData (text : String) : beforeZero (stringData text) =
    (text.toList.takeWhile (· ≠ '\x00')).flatMap String.utf8EncodeChar := by
  rw [stringData_eq, beforeZero]
  induction text.toList with
  | nil => rfl
  | cons c cs ih =>
    rw [List.flatMap_cons, List.append_assoc]
    by_cases hc : c = '\x00'
    · -- its only byte is zero, and ends what is read
      rw [hc]
      rfl
    · have hbytes : ∀ b ∈ String.utf8EncodeChar c, decide (b ≠ 0) = true := by
        intro b hb
        refine decide_eq_true fun hzero => hc (zero_mem_utf8EncodeChar.mp ?_)
        rwa [← hzero]
      rw [List.takeWhile_append_of_pos hbytes, ih, List.takeWhile_cons_of_pos (by simpa using hc),
        List.flatMap_cons]

/-- The whole text is read iff it has no zero character. -/
theorem beforeZero_eq_iff (text : String) :
    beforeZero (stringData text) = text.toList.flatMap String.utf8EncodeChar ↔
      '\x00' ∉ text.toList := by
  constructor
  · intro h hzero
    have hmem : 0 ∈ beforeZero (stringData text) := by
      rw [h]
      exact List.mem_flatMap.mpr ⟨_, hzero, zero_mem_utf8EncodeChar.mpr rfl⟩
    exact absurd (List.mem_takeWhile_imp hmem) (by decide)
  · intro h
    have hall : ∀ c ∈ text.toList, decide (c ≠ '\x00') = true :=
      fun c hc => decide_eq_true fun hzero => h (hzero ▸ hc)
    rw [beforeZero_stringData, List.takeWhile_eq_self_iff.mpr hall]

end Object

/-! ## Output -/

/-- Whatever value holds the string constant, and whatever was printed before, printing the value
adds this line. -/
def Module.Prints (m : Module) (id : Nat) (line : List UInt8) : Prop :=
  ∀ (μ : Machine) (v : Value) (written : ByteArray), μ.values[v.index]? = some (.text id) →
    μ.sink = ⟨none, written⟩ → Exec.instr m (.call .text [v]) μ =
      .ok () { μ with sink := ⟨none, written ++ (line ++ [10]).toByteArray⟩ }

theorem Module.prints_text {m : Module} {id : Nat} {text : String}
    (h : m.strings[id]? = some text) : m.Prints id (text.toList.flatMap String.utf8EncodeChar) := by
  intro μ v written hv hsink
  have hline :
      (text ++ "\n").toUTF8 = (text.toList.flatMap String.utf8EncodeChar ++ [10]).toByteArray := by
    rw [String.toUTF8, ← String.utf8Encode_toList, List.utf8Encode, String.toList_append,
      List.flatMap_append]
    rfl
  rw [Exec.call_text hv h, Exec.writeLine_unlimited hsink, hline]

/-! ## Sources -/

namespace Token

/-- The escapes give no zero character. -/
theorem Escapes.zero_not_mem {body content : List Char} (h : Escapes body content)
    (hbody : '\x00' ∉ body) : '\x00' ∉ content := by
  induction h with
  | nil => exact hbody
  | plain _ _ _ ih =>
    rw [List.mem_cons, not_or] at hbody ⊢
    exact ⟨hbody.1, ih hbody.2⟩
  | @escape e c _ _ he _ ih =>
    have hc : '\x00' ≠ c := by
      rintro rfl
      cases he
    simp only [List.mem_cons, not_or] at hbody
    exact List.not_mem_cons_of_ne_of_not_mem hc (ih hbody.2.2)

theorem Spells.zero_not_mem {spelling : List Char} {text : String}
    (h : Spells spelling (.text text)) (hzero : '\x00' ∉ spelling) : '\x00' ∉ text.toList := by
  generalize hl : Lexeme.text text = l at h
  cases h with
  | text h =>
    cases hl
    rw [String.toList_ofList]
    exact h.zero_not_mem fun hbody => hzero (by simp [hbody])
  | _ => cases hl

end Token

/-- The texts of a tree have no zero character if the source has none. -/
theorem parseSource_zero_not_mem {source : String} {t : Tree} (h : parseSource source = .ok t)
    (hzero : '\x00' ∉ source.toList) {text : String} (ht : text ∈ t.literals) :
    '\x00' ∉ text.toList := by
  obtain ⟨ts, hscan, htree⟩ := parseSource_eq_ok.mp h
  -- a text of the tree is that of a token, or the empty one of a declaration
  have hholds : t.Holds fun l => ∀ text, l = .text text → '\x00' ∉ text.toList := by
    refine (Tree.ofTokens_derives htree).holds (fun _ h => by cases h) (List.forall_mem_map.mpr ?_)
    intro token htoken text hl
    obtain ⟨spelling, hsub, hs⟩ := (Token.splits_of_scan hscan).spelled htoken
    rw [hl] at hs
    exact hs.zero_not_mem fun hmem => hzero (hsub hmem)
  obtain ⟨u, hu, hn⟩ := List.mem_filterMap.mp ht
  unfold Node.text? at hn
  split at hn <;> cases hn
  · rename_i hnode
    exact hholds u hu _ (by rw [hnode]; rfl) text rfl
  · exact List.not_mem_nil

namespace Tree

variable {t : Tree} {m : Module}

theorem strings_lower (h : t.lower.result = .ok m) : m.strings = t.literals.eraseDups := by
  obtain ⟨v, s, b, hlow, -, rfl, -⟩ := lower_eq_ok h
  obtain ⟨uses, hw⟩ := hlow.writes
  exact hw.strings.trans (internAll_nil _)

/-- The routine is not named like a string constant. -/
theorem name_lower (h : t.lower.result = .ok m) (i : Nat) : m.graph.name ≠ Object.stringName i := by
  obtain ⟨v, s, b, hlow, hends, rfl, -⟩ := lower_eq_ok h
  have hname : b.graph.name = "main" := hends.name.trans hlow.graph_name
  show b.graph.name ≠ _
  rw [hname]
  exact Object.ne_stringName (by decide) i

end Tree

/-- The string constants of a source without zero characters have none. -/
theorem compile_zero_not_mem {source : String} {m : Module} (h : compile source = .ok m)
    (hzero : '\x00' ∉ source.toList) {text : String} (ht : text ∈ m.strings) :
    '\x00' ∉ text.toList := by
  obtain ⟨t, hparse, hm⟩ := except_bind_eq_ok.mp h
  rw [Tree.strings_lower (Tree.compile_eq_ok.mp hm).2, List.mem_eraseDups] at ht
  exact parseSource_zero_not_mem hparse hzero ht

/-- **Data and output agree up to the first zero character.** The object file of a compiled program
has one name for each string constant. What is read at its address is the part of the text before
the first zero character, and the machine prints the whole text. So these are the same iff the text
has no zero character, and always if the source has none. -/
theorem compile_stringData {source : String} {m : Module} (h : compile source = .ok m) :
    ∃ o, Object.ofModule m = .ok o ∧
      ∀ (i : Nat) (text : String), m.strings[i]? = some text → ∃ data line,
        o.symbols.filter (·.1 = "__emj_str" ++ toString i) =
          [("__emj_str" ++ toString i, .data data)] ∧
        m.Prints i line ∧
        Object.beforeZero data =
          (text.toList.takeWhile (· ≠ '\x00')).flatMap String.utf8EncodeChar ∧
        (Object.beforeZero data = line ↔ '\x00' ∉ text.toList) ∧
        ('\x00' ∉ source.toList → Object.beforeZero data = line) := by
  obtain ⟨t, -, hm⟩ := except_bind_eq_ok.mp h
  have hlower := (Tree.compile_eq_ok.mp hm).2
  refine ⟨_, Tree.ofModule_lower hlower, fun i text hi => ?_⟩
  have hsame := Object.beforeZero_eq_iff text
  refine ⟨_, _, Object.filter_symbolsOf (Tree.name_lower hlower) hi, Module.prints_text hi,
    Object.beforeZero_stringData text, hsame, fun hzero => hsame.mpr ?_⟩
  exact compile_zero_not_mem h hzero (List.mem_of_getElem? hi)

/-- A text of two bytes, and one with a zero character in its middle. -/
def twoTexts : String := "print \"é\"; print \"a\x00b\";"

theorem twoTexts_stringData : ∃ m o, compile twoTexts = .ok m ∧ Object.ofModule m = .ok o ∧
    (∃ data, o.symbols.filter (·.1 = "__emj_str0") = [("__emj_str0", .data data)] ∧
      m.Prints 0 (Object.beforeZero data) ∧ Object.beforeZero data = [195, 169]) ∧
    ∃ data line, o.symbols.filter (·.1 = "__emj_str1") = [("__emj_str1", .data data)] ∧
      m.Prints 1 line ∧
      Object.beforeZero data = [97] ∧ Object.beforeZero data ≠ line := by
  obtain ⟨m, hm⟩ := exists_of_isOk (x := compile twoTexts) (by decide +kernel)
  have hstrings : m.strings = ["é", "a\x00b"] := by
    have heval : (compile twoTexts).toOption.map (·.strings) = some ["é", "a\x00b"] := by
      decide +kernel
    rw [hm] at heval
    exact Option.some.inj heval
  obtain ⟨o, ho, hdata⟩ := compile_stringData hm
  obtain ⟨data, line, hname, hprints, hread, hsame, -⟩ := hdata 0 "é" (by rw [hstrings]; rfl)
  obtain ⟨data', line', hname', hprints', hread', hsame', -⟩ :=
    hdata 1 "a\x00b" (by rw [hstrings]; rfl)
  refine ⟨m, o, hm, ho, ⟨data, hname, ?_, hread.trans (by decide +kernel)⟩, data', line', hname',
    hprints', hread'.trans (by decide +kernel), fun h => ?_⟩
  · rw [hsame.mpr (by decide +kernel)]
    exact hprints
  · exact hsame'.mp h (by decide +kernel)

/-- The module of a program that prints one text. -/
def printing (text : String) : Module :=
  ⟨"emj", [text],
    ⟨"main", [],
      [⟨"entry", [.string ⟨0, .pointer⟩ 0, .call .text [⟨0, .pointer⟩]], some (.ret 0)⟩]⟩⟩

/-- The machine prints what stands behind a zero character, but it is not read at the address of the
text. -/
theorem zeroInside_cut : compile "print \"a\x00b\";" = .ok (printing "a\x00b") ∧
    (∃ o, Object.ofModule (printing "a\x00b") = .ok o ∧
      ("__emj_str0", .data [97, 0, 98, 0]) ∈ o.symbols) ∧
    Object.beforeZero [97, 0, 98, 0] = [97] ∧ (printing "a\x00b").Prints 0 [97, 0, 98] ∧
    ((printing "a\x00b").run 10 none).output.data.toList = [97, 0, 98, 10] := by
  have hm : compile "print \"a\x00b\";" = .ok (printing "a\x00b") := by decide +kernel
  obtain ⟨t, -, ht⟩ := except_bind_eq_ok.mp hm
  have hobject := Tree.ofModule_lower (Tree.compile_eq_ok.mp ht).2
  have hprints : (printing "a\x00b").Prints 0 ("a\x00b".toList.flatMap String.utf8EncodeChar) :=
    Module.prints_text rfl
  exact ⟨hm, ⟨_, hobject, by decide +kernel⟩, rfl, hprints, by decide +kernel⟩

end FlowLang
