import ProgramGraph.Proofs.Store.Blame
import ProgramGraph.Proofs.Sync.Counting
import ProgramGraph.Sync.PathFilter

set_option autoImplicit false

/-! # Watched files and their readers

A watcher takes extensions in any case of letters, a reader takes them as they are written. So of the
files that are watched for the extensions of a reader, all in small letters, the reader accepts those
whose own extension is in small letters too, and a change of any other file ends in an unsupported
language unless another reader accepts it (`Updater.endsUnsupported_iff`).
-/

namespace ProgramGraph

/-- The path has an extension, and no capital ASCII letter in it. -/
def FilePath.hasSmallExtension (path : FilePath) : Bool :=
  path.extension?.any fun ext => Text.lowerAscii ext = ext

theorem Text.lowerAscii_append (a b : String) : lowerAscii (a ++ b) = lowerAscii a ++ lowerAscii b := by
  unfold lowerAscii
  rw [String.toList_append, List.map_append, String.ofList_append]

/-! ## Readers -/

namespace OutlineReader

variable {r : OutlineReader} {readers : List OutlineReader} {d : Directory} {path : FilePath}

/-- **A reader of watched extensions** accepts those of the watched files whose extension is in small
letters. -/
theorem accepts_iff_hasSmallExtension {s : SyncSettings} (hwatches : s.watches path = true)
    (hext : r.extensions = s.watchedExtensions)
    (hsmall : ∀ ext ∈ s.watchedExtensions, Text.lowerAscii ext = ext) :
    r.accepts path = path.hasSmallExtension := by
  unfold SyncSettings.watches at hwatches
  unfold accepts FilePath.hasSmallExtension
  cases hpath : path.extension? with
  | none => rfl
  | some ext =>
      have hpoint : Text.lowerAscii ("." ++ ext) = "." ++ Text.lowerAscii ext := Text.lowerAscii_append _ _
      have hwatched : "." ++ Text.lowerAscii ext ∈ s.watchedExtensions := by
        rw [hpath, Option.any_some, List.contains_iff_mem] at hwatches
        obtain ⟨watched, hmem, heq⟩ := List.mem_map.mp hwatches
        rw [hsmall watched hmem] at heq
        exact heq ▸ hmem
      rw [Option.any_some, Option.any_some, hext, Bool.eq_iff_iff, List.contains_iff_mem, decide_eq_true_iff]
      constructor
      · intro hmem
        exact ((String.append_right_inj ".").mp ((hsmall _ hmem).symm.trans hpoint)).symm
      · intro heq
        rwa [heq] at hwatched

/-- Of this reader alone. -/
theorem first?_singleton (r : OutlineReader) (path : FilePath) :
    first? [r] path = if r.accepts path then some r else none := by
  rw [first?, List.find?_cons]
  cases r.accepts path <;> rfl

theorem first?_eq_none_iff : first? readers path = none ↔ ∀ r ∈ readers, r.accepts path = false := by
  simp [first?]

theorem atPath_ne_unsupported {α : Type} {x : Except ReadProblem α} (text language : String) :
    atPath path x ≠ .error (.file (.unsupported text language)) := by
  cases x <;> exact fun h => by cases h

/-- A reader that reads a file takes its language for granted. -/
theorem readFile_ne_unsupported (text language : String) :
    r.readFile d path ≠ .error (.file (.unsupported text language)) := by
  intro h
  unfold readFile at h
  obtain h | ⟨size, -, h⟩ := bind_eq_error.mp h
  · exact atPath_ne_unsupported _ _ h
  dsimp only at h
  split at h
  · cases h
  obtain h | ⟨content, -, h⟩ := bind_eq_error.mp h
  · exact atPath_ne_unsupported _ _ h
  obtain h | ⟨f, -, h⟩ := bind_eq_error.mp h
  · unfold readText at h
    split at h <;> cases h
  · cases h

theorem readWith_eq_unsupported_iff :
    (∃ text language, readWith readers d path = .error (.file (.unsupported text language))) ↔
      ∀ r ∈ readers, r.accepts path = false := by
  rw [← first?_eq_none_iff]
  unfold readWith
  cases first? readers path with
  | none => simp
  | some r => simp [readFile_ne_unsupported]

end OutlineReader

/-! ## Changes of a file -/

theorem changesOf_eq_error_iff {readers : List OutlineReader} {d : Directory} {c : FileChange} {held : Graph}
    {failure : Failure} :
    changesOf readers d c held = .error failure ↔
      c.change ≠ .delete ∧ OutlineReader.readWith readers d c.path = .error failure := by
  unfold changesOf
  cases c.change with
  | delete => simp
  | create | modify =>
      cases OutlineReader.readWith readers d c.path <;> simp [bind, Except.bind, pure, Except.pure]

/-- A transaction on a store never fails over a file to be parsed. -/
theorem Action.transaction_ne_file {ops : List Store.Operation} {s s' : Store} (problem : FileProblem) :
    runOn (m := Id) (transaction (ops.forM perform)) s ≠ (.error (.failed (.file problem)), s') := by
  intro h
  obtain ⟨before, op, failure, s₁, -, hop, ⟨-, hwhy, -⟩ | ⟨-, hwhy, -⟩⟩ := transaction_cases_of_error h
  · rw [← Stop.failed.inj hwhy] at hop
    exact s₁.perform_blamesNoFile op problem hop
  · have hstorage := failure.classify_ofTransaction
    rw [← Stop.failed.inj hwhy] at hstorage
    cases problem <;> cases hstorage

namespace Updater

/-- Dealing with the change ends in an unsupported language. -/
def EndsUnsupported (u : Updater) (d : Directory) (c : FileChange) (s : Store) : Prop :=
  ∃ text language, (u.process d c s).1 = .error (.failed (.file (.unsupported text language)))

/-- A change ends so just if the file is still there, the store can be asked about it, and no reader
accepts its path. -/
theorem endsUnsupported_iff_of_readers (u : Updater) (d : Directory) (c : FileChange) (s : Store) :
    u.EndsUnsupported d c s ↔ c.change ≠ .delete ∧ (∃ held, s.fragment c.path.text = .ok held) ∧
      ∀ r ∈ u.readers, r.accepts c.path = false := by
  constructor
  · -- Of the three places where the call can fail, only the reading of the file reports a language.
    rintro ⟨text, language, h⟩
    have hrun : Action.runOn (m := Id) (syncFile u.readers d c) s =
        (.error (.failed (.file (.unsupported text language))), (u.process d c s).2.2) := Prod.ext h rfl
    obtain ⟨failure, hfragment, hwhy, -⟩ | ⟨held, hheld, ⟨failure, hchanges, hwhy, -⟩ | ⟨changes, -, hchanges⟩⟩ :=
      syncFile_cases_of_error hrun
    · rw [← Stop.failed.inj hwhy] at hfragment
      exact absurd hfragment (s.fragment_blamesNoFile _ _)
    · rw [← Stop.failed.inj hwhy] at hchanges
      obtain ⟨hchange, hread⟩ := changesOf_eq_error_iff.mp hchanges
      exact ⟨hchange, ⟨held, hheld⟩, OutlineReader.readWith_eq_unsupported_iff.mp ⟨text, language, hread⟩⟩
    · exact absurd hchanges (Action.transaction_ne_file _)
  · rintro ⟨hchange, ⟨held, hheld⟩, hreaders⟩
    obtain ⟨text, language, hread⟩ := (@OutlineReader.readWith_eq_unsupported_iff u.readers d c.path).mpr hreaders
    have hchanges : changesOf u.readers d c held = _ := changesOf_eq_error_iff.mpr ⟨hchange, hread⟩
    refine ⟨text, language, ?_⟩
    show (Action.runOn (m := Id) (syncFile u.readers d c) s).1 = _
    rw [runOn_syncFile, hheld]
    simp only [hchanges]

/-- **A watched file and the reader of its extension.** Alone the reader is found just for the files whose
extension is in small letters. A change of any other file that is still there ends in an unsupported
language, as soon as the store can be asked about it, unless another reader accepts the path; no other
change of a watched file does. -/
theorem endsUnsupported_iff {u : Updater} {r : OutlineReader} {path root : FilePath}
    (haccepts : u.settings.accepts path root = true) (hr : r ∈ u.readers)
    (hext : r.extensions = u.settings.watchedExtensions)
    (hsmall : ∀ ext ∈ u.settings.watchedExtensions, Text.lowerAscii ext = ext) :
    OutlineReader.first? [r] path = (if path.hasSmallExtension then some r else none) ∧
    ∀ (d : Directory) (change : Change) (s : Store), u.EndsUnsupported d ⟨path, change⟩ s ↔
      path.hasSmallExtension = false ∧ change ≠ .delete ∧ (∃ held, s.fragment path.text = .ok held) ∧
        ∀ other ∈ u.readers, other ≠ r → other.accepts path = false := by
  have hwatches : u.settings.watches path = true := (Bool.and_eq_true_iff.mp haccepts).1
  have hreader : r.accepts path = path.hasSmallExtension :=
    OutlineReader.accepts_iff_hasSmallExtension hwatches hext hsmall
  refine ⟨by rw [OutlineReader.first?_singleton, hreader], fun d change s => ?_⟩
  rw [endsUnsupported_iff_of_readers]
  constructor
  · rintro ⟨hchange, hheld, hreaders⟩
    exact ⟨hreader ▸ hreaders r hr, hchange, hheld, fun other hother _ => hreaders other hother⟩
  · rintro ⟨hcapital, hchange, hheld, hothers⟩
    refine ⟨hchange, hheld, fun other hother => ?_⟩
    by_cases heq : other = r
    · rw [heq, hreader, hcapital]
    · exact hothers other hother heq

/-- A file in small letters is read. -/
theorem endsUnsupported_iff_smallLetters :
    let java : OutlineReader := ⟨"java", [".java"], .standard⟩
    let u : Updater := .new [java] { SyncSettings.standard with watchedExtensions := [".java"] }
    u.settings.accepts ⟨"work/main.java"⟩ ⟨"work"⟩ = true ∧
      OutlineReader.first? u.readers ⟨"work/main.java"⟩ = some java ∧
      ∀ (d : Directory) (change : Change) (s : Store), ¬u.EndsUnsupported d ⟨⟨"work/main.java"⟩, change⟩ s := by
  intro java u
  have haccepts : u.settings.accepts ⟨"work/main.java"⟩ ⟨"work"⟩ = true := by decide
  have hsmall : FilePath.hasSmallExtension ⟨"work/main.java"⟩ = true := by decide
  obtain ⟨hfirst, hends⟩ := @endsUnsupported_iff u java _ _ haccepts List.mem_cons_self rfl (by decide)
  refine ⟨haccepts, ?_, fun d change s h => ?_⟩
  · rw [hsmall] at hfirst
    exact hfirst
  · rw [hends, hsmall] at h
    cases h.1

/-- A file in capital letters is watched and not read. -/
theorem endsUnsupported_capitalLetters :
    let java : OutlineReader := ⟨"java", [".java"], .standard⟩
    let u : Updater := .new [java] { SyncSettings.standard with watchedExtensions := [".java"] }
    u.settings.accepts ⟨"work/Main.JAVA"⟩ ⟨"work"⟩ = true ∧
      OutlineReader.first? u.readers ⟨"work/Main.JAVA"⟩ = none ∧
      u.EndsUnsupported .empty ⟨⟨"work/Main.JAVA"⟩, .create⟩ (.table .empty) := by
  intro java u
  have hnone : ∀ r ∈ u.readers, r.accepts ⟨"work/Main.JAVA"⟩ = false := by decide
  refine ⟨by decide, OutlineReader.first?_eq_none_iff.mpr hnone, ?_⟩
  rw [endsUnsupported_iff_of_readers]
  exact ⟨by decide, ⟨∅, rfl⟩, hnone⟩

end Updater

end ProgramGraph
