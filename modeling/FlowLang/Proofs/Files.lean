import Mathlib.Tactic.ByContra
import Mathlib.Tactic.SplitIfs
import FlowLang.Command

/-!
# Files after a write

* `Folder.read_write`: what was written to a folder is read back. `Folder.lookup_write`: no other
  file changes.
* `FileSystem.Honest`: what the system reports as written to a path is there.
  **`Command.folderSystem_honest`**: a folder reports honestly.
* `FileSystem.emit_eq_ok`: an object file is written only for a module that was checked and
  translated. `FileSystem.emit_files`: nothing else is done to the files.
-/

namespace FlowLang

namespace Folder

variable {f after : Folder} {path : String} {content : Content}

/-- A write puts the content at the place to which the path leads, if there is no folder. -/
theorem write_eq_ok : f.write path content = .ok after ↔ ∃ place, f.locate path = .ok place ∧
    (Path.ofString path).folder = false ∧ f.entry place ≠ .folder ∧
    after = f.put place content := by
  unfold write
  cases hp : f.locate path with
  | error e => simp [bind, Except.bind]
  | ok place =>
    simp only [bind, Except.bind, Except.ok.injEq, exists_eq_left']
    by_cases hf : (Path.ofString path).folder
    · simp [hf]
    · cases he : f.entry place <;> simp [hf, eq_comm]

/-- A file is read where the path leads, unless the path asks for a folder. -/
theorem read_eq_ok : f.read path = .ok content ↔ ∃ place, f.locate path = .ok place ∧
    (Path.ofString path).folder = false ∧ f.entry place = .file content := by
  unfold read
  cases hp : f.locate path with
  | error e => simp [bind, Except.bind]
  | ok place =>
    simp only [bind, Except.bind, Except.ok.injEq, exists_eq_left']
    by_cases hf : (Path.ofString path).folder
    · cases f.entry place <;> simp [hf]
    · cases f.entry place <;> simp [hf]

theorem lookup_filter {α β : Type} [BEq α] [LawfulBEq α] (p : α → Bool) (a : α) (l : List (α × β)) :
    (l.filter (p ·.1)).lookup a = if p a then l.lookup a else none := by
  induction l with
  | nil => simp
  | cons entry l ih =>
    obtain ⟨key, b⟩ := entry
    cases ha : a == key with
    | true =>
      obtain rfl := beq_iff_eq.mp ha
      by_cases hp : p a <;> simp [hp, ih]
    | false => by_cases hp : p key <;> simp [hp, ha, ih, List.lookup_cons]

theorem lookup_put (f : Folder) (place other : List String) (content : Content) :
    (f.put place content).files.lookup other =
      if other = place then some content else f.files.lookup other := by
  show (f.files.filter (decide <| ·.1 ≠ place) ++ [(place, content)]).lookup other = _
  rw [List.lookup_append, lookup_filter (fun name => decide (name ≠ place))]
  by_cases h : other = place
  · simp [h]
  · have hne : (other == place) = false := beq_eq_false_iff_ne.mpr h
    simp [h, hne, List.lookup_cons]

/-- Folders stay folders. -/
theorem entry_put {place other : List String} (hp : f.entry place ≠ .folder)
    (ho : f.entry other = .folder) : (f.put place content).entry other = .folder := by
  have hne : other ≠ place := by
    rintro rfl
    exact hp ho
  unfold entry at ho ⊢
  rw [lookup_put, if_neg hne]
  cases hl : f.files.lookup other with
  | some c =>
    rw [hl] at ho
    cases ho
  | none =>
    rw [hl] at ho
    have hold : f.hasFolder other := by
      by_contra h
      simp [h] at ho
    -- the way to a file still passes here, also if the file is the one that was replaced
    have hnew : (f.put place content).hasFolder other := by
      unfold hasFolder at hold ⊢
      simp only [Bool.or_eq_true, List.any_eq_true] at hold ⊢
      rcases hold with hold | ⟨file, hfile, hway⟩
      · exact .inl hold
      · by_cases hn : file.1 = place
        · exact .inr ⟨(place, content), by simp [put], hn ▸ hway⟩
        · exact .inr ⟨file, by simp [put, hfile, hn], hway⟩
    simp [hnew]

/-- A path still leads where it did. -/
theorem follow_put {place : List String} (hp : f.entry place ≠ .folder)
    {names start target : List String} (h : f.follow start names = .ok target) :
    (f.put place content).follow start names = .ok target := by
  induction names generalizing start with
  | nil => exact h
  | cons name names ih =>
    rw [follow] at h ⊢
    cases he : f.entry start with
    | nothing =>
      rw [he] at h
      cases h
    | file c =>
      rw [he] at h
      cases h
    | folder =>
      rw [he] at h
      rw [entry_put hp he]
      dsimp only at h ⊢
      split_ifs at h ⊢
      · exact ih h
      · exact ih h

theorem locate_put {place target : List String} (hp : f.entry place ≠ .folder)
    (h : f.locate path = .ok target) : (f.put place content).locate path = .ok target := by
  unfold locate at h ⊢
  split_ifs at h ⊢
  exact follow_put hp h

/-- **What was written is read back.** -/
theorem read_write (h : f.write path content = .ok after) : after.read path = .ok content := by
  obtain ⟨place, hplace, hfolder, hentry, rfl⟩ := write_eq_ok.mp h
  refine read_eq_ok.mpr ⟨place, locate_put hentry hplace, hfolder, ?_⟩
  rw [entry, lookup_put, if_pos rfl]

/-- A write changes no other file. -/
theorem lookup_write (h : f.write path content = .ok after) {place : List String}
    (hp : f.locate path ≠ .ok place) : after.files.lookup place = f.files.lookup place := by
  obtain ⟨target, htarget, -, -, rfl⟩ := write_eq_ok.mp h
  have hne : place ≠ target := by
    rintro rfl
    exact hp htarget
  exact (lookup_put f target place content).trans (if_neg hne)

end Folder

/-! ## Object files -/

namespace FileSystem

variable {F : Type} {fs : FileSystem F} {files after : F} {translator : Translator} {path : String}
  {m : Module}

/-- What is reported as written to the path is there, where `Holds` says what it means for a file to
be there in full. -/
def Honest (fs : FileSystem F) (Holds : F → String → Object → Prop) (files : F) (path : String) :
    Prop :=
  ∀ object, (fs.write files path object).1 = .ok () →
    Holds (fs.write files path object).2 path object

theorem emit_of_error {e : EmitFault} (h : translator.object m = .error e) :
    fs.emit translator path m files = (.error e, files) := by
  rw [emit, Files.emit, h]
  rfl

theorem emit_of_ok {object : Object} (h : translator.object m = .ok object) :
    fs.emit translator path m files =
      ((fs.write files path object).1.mapError .system, (fs.write files path object).2) := by
  rw [emit, Files.emit, h]
  rfl

/-- An object file is there if an object was made and the system wrote it. -/
theorem emit_eq_ok : fs.emit translator path m files = (.ok (), after) ↔
    ∃ object, translator.object m = .ok object ∧ fs.write files path object = (.ok (), after) := by
  cases ho : translator.object m with
  | error e => simp [emit_of_error ho]
  | ok object =>
    rw [emit_of_ok ho]
    simp only [Except.ok.injEq, exists_eq_left']
    rcases fs.write files path object with ⟨_ | ⟨⟨⟩⟩, after'⟩ <;> simp [Except.mapError]

/-- Files change only by a write to the path. -/
theorem emit_files (fs : FileSystem F) (files : F) (translator : Translator) (path : String)
    (m : Module) : (fs.emit translator path m files).2 = files ∨
      ∃ object, (fs.emit translator path m files).2 = (fs.write files path object).2 := by
  cases ho : translator.object m with
  | error e => exact .inl (by rw [emit_of_error ho])
  | ok object => exact .inr ⟨object, by rw [emit_of_ok ho]⟩

/-- A fault that is not the system's leaves the files as they were. -/
theorem emit_error {e : EmitFault} (h : fs.emit translator path m files = (.error e, after))
    (he : ∀ reason, e ≠ .system reason) : after = files := by
  cases ho : translator.object m with
  | error e' =>
    rw [emit_of_error ho] at h
    exact (congrArg Prod.snd h).symm
  | ok object =>
    rw [emit_of_ok ho] at h
    have hresult := congrArg Prod.fst h
    rcases hw : (fs.write files path object).1 with reason | ⟨⟨⟩⟩
    · rw [hw] at hresult
      exact absurd (Except.error.inj hresult).symm (he reason)
    · rw [hw] at hresult
      cases hresult

theorem emitTree_error {t : Tree} {e : BuildFault}
    (h : fs.emitTree translator path t files = (.error e, after))
    (he : ∀ reason, e ≠ .emit (.system reason)) : after = files := by
  unfold emitTree Files.emitTree at h
  cases hc : t.compile with
  | error e' =>
    rw [hc] at h
    exact (congrArg Prod.snd h).symm
  | ok m =>
    rw [hc] at h
    change ((fs.emit translator path m files).1.mapError BuildFault.emit,
      (fs.emit translator path m files).2) = _ at h
    rcases hm : fs.emit translator path m files with ⟨e' | ⟨⟨⟩⟩, after'⟩
    · rw [hm] at h
      cases h
      exact emit_error hm fun reason hr => he reason (congrArg BuildFault.emit hr)
    · rw [hm] at h
      cases h

theorem emitSource_error {source : String} {e : BuildFault}
    (h : fs.emitSource translator path source files = (.error e, after))
    (he : ∀ reason, e ≠ .emit (.system reason)) : after = files := by
  unfold emitSource Files.emitSource at h
  cases hp : parseSource source with
  | error e' =>
    rw [hp] at h
    exact (congrArg Prod.snd h).symm
  | ok t =>
    rw [hp] at h
    exact emitTree_error h he

end FileSystem

/-- **A folder reports honestly.** -/
theorem Command.folderSystem_honest (stdin : ByteArray) (folder : Folder) (path : String) :
    (folderSystem stdin).Honest (fun after path object => after.read path = .ok (.object object))
      folder path := by
  intro object hok
  cases hw : folder.write path (.object object) with
  | ok after =>
    have hsystem : (folderSystem stdin).write folder path object = (.ok (), after) := by
      simp only [folderSystem, hw]
    rw [hsystem]
    exact Folder.read_write hw
  | error e =>
    have hsystem : (folderSystem stdin).write folder path object = (.error e.message, folder) := by
      simp only [folderSystem, hw]
    rw [hsystem] at hok
    cases hok

end FlowLang
