import KubeSchema.Command.Run
import KubeSchema.Proofs.Beside
import KubeSchema.Proofs.Conversion
import KubeSchema.Proofs.Paths

/-!
# What a command leaves behind

The standard input and a result that is to be printed go through temporary files. These are beside the other files, so
that the conversion of a command does what the same conversion of the named files would do, and nothing of them is left
afterwards.

* `TemporaryNames.Free`: what the system promises about the names of temporary files.
* `Invocation.run_convert`: with which status a command ends, and what it then has printed or written.
* `Invocation.run_loses_result`: a result sent to the empty path is lost, though the command ends as if all was well.
-/

namespace KubeSchema

/-! ## What a request asks for -/

namespace Request

/-- The text that is to be converted. -/
def source (r : Request) (files : Files) (standardInput : String) : Except FileError String :=
  match r.input with
  | none => .ok standardInput
  | some path => files.read path

/-- The options of the restructuring: the usual keyword for objects that keep unknown fields, unless another one is
given, and what is not to be kept is dropped. -/
def options (r : Request) : Options where
  preserveKey := match r.preserveKey with
    | none | some "" => preserveKeyword
    | some key => key
  dropUniqueItems := !r.keepUniqueItems
  dropEnumNull := !r.keepEnumNull

/-- The files that are named. -/
def paths (r : Request) : List String := r.input.toList ++ (r.output.bind Destination.path?).toList

/-- A text was sent where it was asked for: it is all that was printed, and no file was changed; or it is in the file
named, and no other file was changed. -/
def Delivered (r : Request) (files : Files) (done : Result) (text : String) : Prop :=
  match r.output with
  | none => done.output = .text text ∧ files.Unchanged done.files
  | some (.file path) => done.files.read path = .ok text ∧ files.ChangedAt done.files (Path.place path) text
  | some .nowhere => False

/-- The destination named is no file at all. -/
def IsLost (r : Request) : Prop := r.output = some (.file "") ∨ r.output = some .nowhere

theorem options_conversion (r : Request) (input : String) (output : Option String) :
    (r.conversion input output).options = r.options := Conversion.options_eq _

end Request

/-! ## Temporary files -/

namespace Files

/-- A file can be made at a path: it leads through directories, none of which is a file as well, to where nothing is. -/
structure IsNew (fs : Files) (path : String) : Prop where
  resolve : fs.resolve path = .ok (Path.place path)
  isFile : ∀ ps, ps <+: Path.parts path.toList → fs.isFile (ps.foldl Path.step (Path.origin path)) = false
  isDirectory : fs.isDirectory (Path.place path) = false

theorem isNew_iff {fs : Files} {path : String} : fs.IsNew path ↔ fs.resolve path = .ok (Path.place path) ∧
    (∀ ps ∈ (Path.parts path.toList).inits, fs.isFile (ps.foldl Path.step (Path.origin path)) = false) ∧
    fs.isDirectory (Path.place path) = false := by
  simp only [List.mem_inits]
  exact ⟨fun h => ⟨h.resolve, h.isFile, h.isDirectory⟩, fun h => ⟨h.1, h.2.1, h.2.2⟩⟩

end Files

/-- The system gives names at which files can be made, not the same to both, and none that the request names. -/
structure TemporaryNames.Free (names : TemporaryNames) (files : Files) (request : Request) : Prop where
  input : files.IsNew names.input
  output : files.IsNew names.output
  differ : Path.place names.input ≠ Path.place names.output
  apart : ∀ path ∈ request.paths, Path.place path ≠ Path.place names.input ∧ Path.place path ≠ Path.place names.output

namespace Invocation

section Temporaries

variable {names : TemporaryNames} {files : Files} {request : Request} {standardInput content text : String}

theorem mem_temporaries {place : Place}
    (h : place ∈ (temporaries names request standardInput).map Prod.fst) :
    place = Path.place names.input ∨ place = Path.place names.output := by
  simp only [temporaries, List.map_append, List.mem_append] at h
  refine h.imp (fun h => ?_) (fun h => ?_)
  · split at h <;> simp_all
  · split at h <;> simp_all

theorem nodup_temporaries (hfree : names.Free files request) (standardInput : String) :
    ((temporaries names request standardInput).map Prod.fst).Nodup := by
  unfold temporaries
  have hdiffer := hfree.differ
  cases request.input <;> cases request.output <;> simp_all

theorem not_mem_temporaries (hfree : names.Free files request) {path : String} (hpath : path ∈ request.paths) :
    Path.place path ∉ (temporaries names request standardInput).map Prod.fst := by
  intro hmem
  obtain h | h := mem_temporaries hmem
  · exact (hfree.apart path hpath).1 h
  · exact (hfree.apart path hpath).2 h

theorem beside_temporaries (hfree : names.Free files request) (standardInput : String) :
    files.Beside ((temporaries names request standardInput).map Prod.fst) := by
  have hnew : ∀ name, files.IsNew name → files.isFile (Path.place name) = false ∧
      files.isDirectory (Path.place name) = false ∧
        ∀ q, q <+: Path.place name → q ≠ Path.place name → files.isDirectory q = true := by
    intro name h
    exact ⟨h.isFile _ (List.prefix_refl _), h.isDirectory, fun q => Files.isDirectory_of_prefix h.resolve⟩
  intro place hplace
  obtain rfl | rfl := mem_temporaries hplace
  · exact hnew _ hfree.input
  · exact hnew _ hfree.output

/-- The conversion of a request reads what the request asks for. -/
theorem read_conversion (hfree : names.Free files request) :
    (files.putAll (temporaries names request standardInput)).read (conversion names request).input = .ok content ↔
      request.source files standardInput = .ok content := by
  have hbeside := beside_temporaries hfree standardInput
  have hnodup := nodup_temporaries hfree standardInput
  have hinput : (conversion names request).input = request.input.getD names.input := rfl
  rw [hinput, Request.source]
  cases hrequest : request.input with
  | none =>
    have hmem : (Path.place names.input, standardInput) ∈ temporaries names request standardInput := by
      simp [temporaries, hrequest]
    have hresolve := Files.resolve_mono
      (fun _ => (Files.within_putAll files (temporaries names request standardInput)).isDirectory) hfree.input.resolve
    rw [Option.getD_none, Files.read_eq_ok, Files.content?_putAll_of_mem hnodup hmem]
    simp [hresolve]
  | some path =>
    exact hbeside.read_putAll (not_mem_temporaries hfree (by simp [Request.paths, hrequest]))

/-- A result that is to be printed can be written to its temporary file. -/
theorem write_temporary (hfree : names.Free files request) :
    ((files.putAll (temporaries names request standardInput)).write names.output text).2 = none := by
  have hbeside := beside_temporaries hfree standardInput
  have hwithin := Files.within_putAll files (temporaries names request standardInput)
  refine Files.write_eq_none (Files.resolve_mono (fun _ => hwithin.isDirectory) hfree.output.resolve) ?_ ?_ text
  · intro ps rest hparts hrest
    -- the way to a temporary file goes through directories, and there is none where the temporary files are
    have hdirectory : files.isDirectory (ps.foldl Path.step (Path.origin names.output)) = true :=
      (Files.walk_append (hparts ▸ (Files.resolve_eq_ok.1 hfree.output.resolve).2)).2 hrest
    rw [Bool.eq_false_iff]
    intro hfile
    obtain hfile | hmem := Files.isFile_putAll hfile
    · rw [hfree.output.isFile ps ⟨rest, hparts.symm⟩] at hfile
      cases hfile
    · rw [(hbeside _ hmem).2.1] at hdirectory
      cases hdirectory
  · rw [Bool.eq_false_iff]
    intro hdirectory
    have hdirectory := hbeside.isDirectory_putAll hdirectory
    rw [hfree.output.isDirectory] at hdirectory
    cases hdirectory

end Temporaries

/-! ## Runs -/

section Runs

variable {names : TemporaryNames} {files : Files} {request : Request} {standardInput text : String} {verbose : Bool}

/-- A command whose conversion fails says so, and leaves the files as they were. -/
theorem run_of_error (hfree : names.Free files request) {e : Failure} {converted : Converted}
    (hrun : (conversion names request).run (files.putAll (temporaries names request standardInput)) = converted)
    (he : converted.result = .error e)
    (hgrows : (files.putAll (temporaries names request standardInput)).Grows converted.files) :
    ((convert verbose request).run names files standardInput).exitCode = 1 ∧
      files.Unchanged ((convert verbose request).run names files standardInput).files := by
  have hfiles : ((convert verbose request).run names files standardInput).files =
      converted.files.remove ((temporaries names request standardInput).map Prod.fst) := by
    rw [run, ← hrun]
  constructor
  · rw [run, hrun, he]
    rfl
  · rw [hfiles]
    exact (beside_temporaries hfree standardInput).unchanged_remove (fun place _ => hgrows.content? place)

/-- Taking the temporary files away leaves the others as they were but for one that was written. -/
theorem changedAt_remove (hfree : names.Free files request) {after : Files} {path : String} (hpath : path ∈ request.paths)
    (h : (files.putAll (temporaries names request standardInput)).ChangedAt after (Path.place path) text) :
    files.ChangedAt (after.remove ((temporaries names request standardInput).map Prod.fst)) (Path.place path) text := by
  constructor
  · rw [Files.content?_remove, if_neg (not_mem_temporaries hfree hpath), h.content]
  · intro other hother
    rw [Files.content?_remove]
    split
    · next hmem =>
      have hnone : (files.content? other).isNone :=
        Option.isSome_eq_false_iff.1 (beside_temporaries hfree standardInput other hmem).1
      rw [Option.isNone_iff_eq_none.1 hnone]
    · next hmem => rw [h.others other hother, Files.content?_putAll_of_not_mem hmem]

theorem run_eq {converted : Converted} {shownText : String}
    (hrun : (conversion names request).run (files.putAll (temporaries names request standardInput)) = converted)
    (hok : converted.result = .ok text) (hprinted : printed names request converted.files = .ok shownText) :
    (convert verbose request).run names files standardInput =
      ⟨0, .text (announced names request ++ shownText), .events (shown verbose converted.log),
        converted.files.remove ((temporaries names request standardInput).map Prod.fst)⟩ := by
  rw [run, hrun, hok, hprinted]
  rfl

/-- A command whose conversion succeeds ends well, and delivers the result unless that is sent to no file. -/
theorem run_of_ok (hfree : names.Free files request) {converted : Converted}
    (hrun : (conversion names request).run (files.putAll (temporaries names request standardInput)) = converted)
    (hok : converted.result = .ok text)
    (hdelivered : (conversion names request).Delivered (files.putAll (temporaries names request standardInput))
      converted.files text)
    (hwithin : (files.putAll (temporaries names request standardInput)).Within converted.files) :
    ((convert verbose request).run names files standardInput).exitCode = 0 ∧
      (request.Delivered files ((convert verbose request).run names files standardInput) text ↔ ¬ request.IsLost) ∧
        (request.IsLost → files.Unchanged ((convert verbose request).run names files standardInput).files) := by
  have hbeside := beside_temporaries hfree standardInput
  have hall := (Files.within_putAll files (temporaries names request standardInput)).trans hwithin
  have hnothing : Conversion.filled (conversion names request).output = none →
      files.Unchanged (converted.files.remove ((temporaries names request standardInput).map Prod.fst)) := by
    intro hfilled
    exact hbeside.unchanged_remove fun place _ => (Conversion.delivered_nothing hfilled).1 hdelivered place
  cases houtput : request.output with
  | none =>
    have hne : names.output ≠ "" := (Files.resolve_eq_ok.1 hfree.output.resolve).1.2.1
    have hfilled : Conversion.filled (conversion names request).output = some names.output :=
      Conversion.filled_eq_some.2 ⟨by simp [conversion, Request.conversion, houtput], hne⟩
    obtain ⟨hread, hchanged⟩ := (Conversion.delivered_file hfilled).1 hdelivered
    have hmem : Path.place names.output ∈ (temporaries names request standardInput).map Prod.fst := by
      simp [temporaries, houtput]
    have hunchanged : files.Unchanged (converted.files.remove ((temporaries names request standardInput).map Prod.fst)) :=
      hbeside.unchanged_remove fun place hplace => hchanged.others place fun heq => hplace (heq ▸ hmem)
    have hprinted : printed names request converted.files = .ok text := by simp [printed, houtput, hread]
    have hannounced : announced names request = "" := by simp [announced, houtput]
    rw [run_eq hrun hok hprinted]
    refine ⟨rfl, ?_, fun _ => hunchanged⟩
    simp [Request.Delivered, Request.IsLost, houtput, hannounced, hunchanged]
  | some destination =>
    have hprinted : printed names request converted.files = .ok "" := by simp [printed, houtput]
    have hpath : (conversion names request).output = destination.path? := by
      simp [conversion, Request.conversion, houtput]
    rw [run_eq hrun hok hprinted]
    refine ⟨rfl, ?_⟩
    cases destination with
    | nowhere =>
      have hunchanged := hnothing (Conversion.filled_eq_none.2 (.inl hpath))
      simp [Request.Delivered, Request.IsLost, houtput, hunchanged]
    | file path =>
      by_cases hempty : path = ""
      · subst hempty
        have hunchanged := hnothing (Conversion.filled_eq_none.2 (.inr hpath))
        refine ⟨?_, fun _ => hunchanged⟩
        simp [Request.Delivered, Request.IsLost, houtput, Files.read_eq_ok, Files.resolve_eq_ok]
      · have hnamed : path ∈ request.paths := by simp [Request.paths, houtput, Destination.path?]
        obtain ⟨hread, hchanged⟩ :=
          (Conversion.delivered_file (Conversion.filled_eq_some.2 ⟨hpath, hempty⟩)).1 hdelivered
        have hread := hbeside.read_remove hall (not_mem_temporaries hfree hnamed) hread
        have hchanged := changedAt_remove hfree hnamed hchanged
        simp [Request.Delivered, Request.IsLost, houtput, hempty, hread, hchanged]

/-- A command goes as the conversion of its request does. -/
theorem run_cases (hfree : names.Free files request) {done : Result}
    (hdone : (convert verbose request).run names files standardInput = done) :
    ((∃ e, ((conversion names request).run (files.putAll (temporaries names request standardInput))).result = .error e) ∧
        done.exitCode = 1 ∧ files.Unchanged done.files) ∨
      ∃ content text, request.source files standardInput = .ok content ∧
        (request.options.convert content).outcome = .ok text ∧
        ((conversion names request).run (files.putAll (temporaries names request standardInput))).result = .ok text ∧
        done.exitCode = 0 ∧ (request.Delivered files done text ↔ ¬ request.IsLost) ∧
        (request.IsLost → files.Unchanged done.files) := by
  subst hdone
  obtain ⟨e, he, hgrows⟩ | ⟨content, text, hread, hconvert, hok, hdeliver⟩ :=
    (conversion names request).run_cases (files.putAll (temporaries names request standardInput))
  · exact .inl ⟨⟨e, he⟩, run_of_error hfree rfl he hgrows⟩
  · obtain ⟨hdelivered, hwithin⟩ := Conversion.deliver_ok hdeliver
    have hsource := (read_conversion hfree).1 hread
    rw [conversion, request.options_conversion] at hconvert
    exact .inr ⟨content, text, hsource, hconvert, hok, run_of_ok hfree rfl hok hdelivered hwithin⟩

/-- The conversion of a request succeeds if its text can be read and converted, and the file that it names can be
written. -/
theorem conversion_eq_ok (hfree : names.Free files request) (standardInput text : String) :
    ((conversion names request).run (files.putAll (temporaries names request standardInput))).result = .ok text ↔
      ∃ content, request.source files standardInput = .ok content ∧
        (request.options.convert content).outcome = .ok text ∧
        ∀ path, request.output = some (.file path) → path ≠ "" →
          ((files.putAll (temporaries names request standardInput)).write path text).2 = none := by
  rw [Conversion.run_eq_ok]
  have hoptions : (conversion names request).options = request.options := request.options_conversion _ _
  refine exists_congr fun content => ?_
  rw [read_conversion hfree, hoptions]
  refine and_congr_right' (and_congr_right' ?_)
  cases houtput : request.output with
  | none => simp [conversion, Request.conversion, houtput, write_temporary hfree]
  | some destination =>
    cases destination <;> simp [conversion, Request.conversion, houtput, Destination.path?]

/-- **A command loses its result only if that is sent to no file.** It ends with status 0 if the text that it is given
can be read and converted, and the file that is named can be written. Then the text of the structural document is all
that was printed, if no destination is named, or it is in the file named, unless that is no file at all; and no other
file has changed. Otherwise the command ends with status 1, and the files are as they were. -/
theorem run_convert (hfree : names.Free files request) {done : Result}
    (hdone : (convert verbose request).run names files standardInput = done) :
    (done.exitCode = 0 ↔
      ∃ content text, request.source files standardInput = .ok content ∧
        (request.options.convert content).outcome = .ok text ∧
        ∀ path, request.output = some (.file path) → path ≠ "" →
          ((files.putAll (temporaries names request standardInput)).write path text).2 = none) ∧
    (done.exitCode = 0 →
      ∃ content text, request.source files standardInput = .ok content ∧
        (request.options.convert content).outcome = .ok text ∧
        (request.Delivered files done text ↔ ¬ request.IsLost) ∧ (request.IsLost → files.Unchanged done.files)) ∧
    (done.exitCode ≠ 0 → done.exitCode = 1 ∧ files.Unchanged done.files) := by
  have hok := conversion_eq_ok hfree standardInput
  rw [exists_comm]
  simp only [← hok]
  obtain ⟨⟨e, he⟩, hexit, hunchanged⟩ | ⟨content, text, hsource, hconvert, hresult, hexit, hdelivered⟩ :=
    run_cases hfree hdone
  · simp [hexit, he, hunchanged]
  · refine ⟨⟨fun _ => ⟨text, hresult⟩, fun _ => hexit⟩, fun _ => ⟨content, text, hsource, hconvert, hdelivered⟩, ?_⟩
    exact fun h => absurd hexit h

/-- A file and the standard input, converted to the standard output. -/
theorem run_convert_standard :
    let files := Files.ofList [("in.json", "\x7b\x7d")]
    let names : TemporaryNames := { input := "tmp", output := "tmp.out" }
    let done := (convert false {}).run names files "\x7b\"uniqueItems\": true\x7d"
    names.Free files {} ∧ done.exitCode = 0 ∧ done.output = .text "\x7b\x7d" ∧ files.Unchanged done.files := by
  intro files names done
  have hinput : files.IsNew "tmp" := Files.isNew_iff.2 ⟨rfl, by decide +kernel⟩
  have houtput : files.IsNew "tmp.out" := Files.isNew_iff.2 ⟨rfl, by decide +kernel⟩
  have hfree : names.Free files {} := ⟨hinput, houtput, by decide +kernel, by decide +kernel⟩
  have hexit : done.exitCode = 0 := by decide +kernel
  obtain ⟨content, text, -, -, hdelivered, -⟩ := (run_convert hfree rfl).2.1 hexit
  have houtput : done.output = .text text ∧ files.Unchanged done.files := hdelivered.2 (by simp [Request.IsLost])
  exact ⟨hfree, hexit, by decide +kernel, houtput.2⟩

/-- A result sent to the empty path is lost: the command ends with status 0, and the text is in no file and was not
printed. -/
theorem run_loses_result :
    let files := Files.ofList [("in.json", "\x7b\x7d")]
    let names : TemporaryNames := { input := "tmp", output := "tmp.out" }
    let request : Request := { input := some "in.json", output := some (.file "") }
    let done := (Invocation.ofArguments ["j2k", "in.json", "--out", ""]).run names files ""
    Invocation.ofArguments ["j2k", "in.json", "--out", ""] = convert false request ∧ names.Free files request ∧
      request.source files "" = .ok "\x7b\x7d" ∧ (request.options.convert "\x7b\x7d").outcome = .ok "\x7b\x7d" ∧
      done.exitCode = 0 ∧ ¬ request.Delivered files done "\x7b\x7d" ∧ done.files = files ∧
      done.output = .text
        "Executing Convert JSON Schema to a Kubernetes structural schema with input in.json and output \n" := by
  intro files names request done
  have hinput : files.IsNew "tmp" := Files.isNew_iff.2 ⟨rfl, by decide +kernel⟩
  have houtput : files.IsNew "tmp.out" := Files.isNew_iff.2 ⟨rfl, by decide +kernel⟩
  have hfree : names.Free files request := ⟨hinput, houtput, by decide +kernel, by decide +kernel⟩
  refine ⟨by decide +kernel, hfree, rfl, rfl, by decide +kernel, ?_, by decide +kernel, by decide +kernel⟩
  rintro ⟨hread, -⟩
  exact (Files.resolve_eq_ok.1 (Files.read_eq_ok.1 hread).1).1.2.1 rfl

end Runs

end Invocation

end KubeSchema
