import FontSubset.CommandLine
import FontSubset.Proofs.Result
import FontSubset.Sample.Font

/-!
# Files of failed runs

* `CommandLine.leaves_files_iff`: a run that fails leaves other files than it has found only if
  writing has begun. If the font could be written and the objects cannot be, the new font is left
  behind; and whatever a write that fails makes of the files is not undone either.
-/

namespace FontSubset

/-- What a file holds, and what comes of writing one. A write that fails may have changed the files
all the same: it may leave a file that is empty or not complete. -/
structure FileSystem (φ : Type) where
  read : φ → String → Except String Bytes
  write : φ → String → Bytes → Except String Unit × φ

/-- The files of a workspace, where a write that fails changes nothing. -/
def Workspace.system : FileSystem Workspace where
  read w path := (w.read path).mapError FileFault.message
  write w path data :=
    match w.write path data with
    | .ok after => (.ok (), after)
    | .error fault => (.error fault.message, w)

/-- The files in the state of a host. Only writing changes them. -/
structure Host.Serves {σ φ : Type} (host : Host (StateM σ)) (system : FileSystem φ)
    (files : σ → φ) : Prop where
  readFile : ∀ path s, ((host.readFile path).run s).1 = system.read (files s) path ∧
    files ((host.readFile path).run s).2 = files s
  writeFile : ∀ path data s,
    ((host.writeFile path data).run s).1 = (system.write (files s) path data).1 ∧
      files ((host.writeFile path data).run s).2 = (system.write (files s) path data).2
  readInput : ∀ s, files (host.readInput.run s).2 = files s
  print : ∀ text s, files ((host.print text).run s).2 = files s
  printError : ∀ text s, files ((host.printError text).run s).2 = files s

namespace CommandLine
variable {σ φ : Type} {host : Host (StateM σ)} {system : FileSystem φ} {files : σ → φ}

/-! ## Steps that leave the files alone -/

def Keeps {α : Type} (files : σ → φ) (x : Action (StateM σ) α) : Prop :=
  ∀ s, files (x.run.run s).2 = files s

theorem Keeps.pure {α : Type} (a : α) : Keeps files (pure a) := fun _ => rfl

theorem Keeps.throw {α : Type} (e : FontError) :
    Keeps files (throw e : Action (StateM σ) α) := fun _ => rfl

theorem Keeps.lift {α : Type} (x : Except FontError α) :
    Keeps files (liftM x : Action (StateM σ) α) := fun _ => rfl

theorem Keeps.mk {α : Type} (x : Except FontError α) :
    Keeps files (ExceptT.mk (Pure.pure x) : Action (StateM σ) α) := fun _ => rfl

theorem Keeps.bind {α β : Type} {x : Action (StateM σ) α} {f : α → Action (StateM σ) β}
    (first : Keeps files x) (next : ∀ a, Keeps files (f a)) : Keeps files (x >>= f) := by
  intro s
  have here := first s
  rcases ran : x.run.run s with ⟨_ | a, s'⟩
  · rw [ran] at here
    rw [run_bind_of_error ran]
    exact here
  · rw [ran] at here
    rw [run_bind_of_ok ran]
    exact (next a s').trans here

theorem Keeps.attempt {α : Type} {x : StateM σ (Except String α)}
    (h : ∀ s, files (x.run s).2 = files s) : Keeps files (attempt x) := h

/-! ## What is to be embedded -/

section
variable [JobFormat] [FaceParser] [ScriptTable]

/-- Reads the job and runs it. -/
def produce (host : Host (StateM σ)) (r : Request) : Action (StateM σ) Embedding := do
  let text ← readJob host r
  let job ← (Job.ofJson text : Except FontError Job)
  let output ← runJob host job
  return output.embedding

theorem runRequest_eq [Pdf.Compressor] (host : Host (StateM σ)) (r : Request) :
    runRequest host r = produce host r >>= writeOutput host r := by
  simp [runRequest, produce]

variable (serves : host.Serves system files)
include serves

omit [JobFormat] [FaceParser] [ScriptTable] in
theorem keeps_readJob (r : Request) : Keeps files (readJob host r) := by
  unfold readJob
  cases r.jobFile with
  | none =>
    refine .bind (.attempt serves.readInput) fun data => ?_
    dsimp only
    split
    · exact .pure _
    · exact .throw _
  | some path =>
    refine .bind (.attempt fun s => (serves.readFile path s).2) fun data => ?_
    dsimp only
    split
    · exact .pure _
    · exact .throw _

omit [JobFormat] in
theorem keeps_runJob (job : Job) : Keeps files (runJob host job) :=
  .bind (.attempt fun s => (serves.readFile _ s).2) fun _ => .mk _

theorem keeps_produce (r : Request) : Keeps files (produce host r) :=
  .bind (keeps_readJob serves r) fun _ => .bind (.lift _) fun job =>
    .bind (keeps_runJob serves job) fun _ => .pure _

end

/-! ## Writing -/

theorem attempt_bind_of_ok {α β : Type} {x : StateM σ (Except String α)} {a : α} {s s' : σ}
    (h : x.run s = (.ok a, s')) (f : α → Action (StateM σ) β) :
    (attempt x >>= f).run.run s = (f a).run.run s' := by
  refine run_bind_of_ok ?_ f
  rw [attempt, ExceptT.run_mk, StateT.run_map, h]
  rfl

theorem attempt_bind_of_error {α β : Type} {x : StateM σ (Except String α)} {fault : String}
    {s s' : σ} (h : x.run s = (.error fault, s')) (f : α → Action (StateM σ) β) :
    (attempt x >>= f).run.run s = (.error (.inputOutput fault), s') := by
  refine run_bind_of_error ?_ f
  rw [attempt, ExceptT.run_mk, StateT.run_map, h]
  rfl

theorem lift_bind {α β : Type} (x : StateM σ α) (f : α → Action (StateM σ) β) (s : σ) :
    ((liftM x : Action (StateM σ) α) >>= f).run.run s =
      (f (x.run s).1).run.run (x.run s).2 := rfl

section
variable [Pdf.Compressor]

/-- Writes the objects of a font if they are asked for. -/
def writeObjects (host : Host (StateM σ)) (r : Request) (e : Embedding) : Action (StateM σ) Unit :=
  r.objectsFile.elim (pure ()) fun path => do
    let objects := (Pdf.addFont .empty e).2
    attempt (host.writeFile path objects.toBytes)
    host.printError s!"✓ Written {objects.size} PDF objects to {path}\n"

theorem writeOutput_eq (host : Host (StateM σ)) (r : Request) (e : Embedding) :
    writeOutput host r e = (do
      attempt (host.writeFile r.fontFile e.fontData)
      host.printError s!"✓ Written {e.fontData.size} bytes to {r.fontFile} ({e.fontName})\n"
      writeObjects host r e) := by
  rw [writeOutput, writeObjects]
  cases r.objectsFile <;> rfl

/-- Either the font cannot be written, or it has been and the objects cannot be; `after` is what
the write that fails leaves. -/
inductive LeftBehind (system : FileSystem φ) (r : Request) (e : Embedding) (before after : φ) : Prop
  | font (fault : String)
      (failed : system.write before r.fontFile e.fontData = (.error fault, after))
  | objects (between : φ) (path fault : String)
      (written : system.write before r.fontFile e.fontData = (.ok (), between))
      (asked : r.objectsFile = some path)
      (failed : system.write between path (Pdf.addFont .empty e).2.toBytes = (.error fault, after))

variable (serves : host.Serves system files) {r : Request} {e : Embedding} {s : σ} {after : φ}
include serves

omit [Pdf.Compressor] in
theorem writeFile_eq {path : String} {data : Bytes} {result : Except String Unit}
    (written : system.write (files s) path data = (result, after)) :
    ∃ s', (host.writeFile path data).run s = (result, s') ∧ files s' = after := by
  obtain ⟨same, now⟩ := serves.writeFile path data s
  rw [written] at same now
  exact ⟨_, Prod.ext same rfl, now⟩

/-- Once the font has been written, the objects are all that is left to be done. -/
theorem writeOutput_of_font
    (font : system.write (files s) r.fontFile e.fontData = (.ok (), after)) :
    ∃ s', files s' = after ∧
      (writeOutput host r e).run.run s = (writeObjects host r e).run.run s' := by
  obtain ⟨s₁, ran, now⟩ := writeFile_eq serves font
  rw [writeOutput_eq, attempt_bind_of_ok ran, lift_bind]
  exact ⟨_, (serves.printError _ s₁).trans now, rfl⟩

theorem writeOutput_of_fontFault {fault : String}
    (font : system.write (files s) r.fontFile e.fontData = (.error fault, after)) :
    ∃ s', files s' = after ∧
      (writeOutput host r e).run.run s = (.error (.inputOutput fault), s') := by
  obtain ⟨s₁, refused, now⟩ := writeFile_eq serves font
  rw [writeOutput_eq, attempt_bind_of_error refused]
  exact ⟨s₁, now, rfl⟩

theorem writeObjects_of_fault {path fault : String} (asked : r.objectsFile = some path)
    (objects : system.write (files s) path (Pdf.addFont .empty e).2.toBytes =
      (.error fault, after)) :
    ∃ s', files s' = after ∧
      (writeObjects host r e).run.run s = (.error (.inputOutput fault), s') := by
  obtain ⟨s₁, refused, now⟩ := writeFile_eq serves objects
  rw [writeObjects, asked, Option.elim_some, attempt_bind_of_error refused]
  exact ⟨s₁, now, rfl⟩

theorem writeOutput_of_leftBehind (left : LeftBehind system r e (files s) after) :
    ∃ fault s', files s' = after ∧
      (writeOutput host r e).run.run s = (.error (.inputOutput fault), s') := by
  cases left with
  | font fault failed => exact ⟨fault, writeOutput_of_fontFault serves failed⟩
  | objects between path fault written asked failed =>
    obtain ⟨s₁, rfl, run⟩ := writeOutput_of_font serves written
    exact ⟨fault, run ▸ writeObjects_of_fault serves asked failed⟩

/-- Writing fails with one of the two files. -/
theorem leftBehind_of_writeOutput {s' : σ} {fault : FontError}
    (run : (writeOutput host r e).run.run s = (.error fault, s')) :
    LeftBehind system r e (files s) (files s') := by
  rcases font : system.write (files s) r.fontFile e.fontData with ⟨refusal | _, between⟩
  · obtain ⟨s₁, rfl, ran⟩ := writeOutput_of_fontFault serves font
    cases run.symm.trans ran
    exact .font refusal font
  · obtain ⟨s₁, rfl, ran⟩ := writeOutput_of_font serves font
    rw [ran] at run
    cases asked : r.objectsFile with
    | none =>
      rw [writeObjects, asked] at run
      cases run
    | some path =>
      rcases objects : system.write (files s₁) path (Pdf.addFont .empty e).2.toBytes with
        ⟨refusal | _, last⟩
      · obtain ⟨s₂, rfl, ran⟩ := writeObjects_of_fault serves asked objects
        cases run.symm.trans ran
        exact .objects _ path refusal font asked objects
      · obtain ⟨s₂, ran, -⟩ := writeFile_eq serves objects
        rw [writeObjects, asked, Option.elim_some, attempt_bind_of_ok ran] at run
        cases run

end

/-! ## Runs -/

section
variable [JobFormat] [FaceParser] [ScriptTable]

/-- The job that a run reads leads to this embedding. -/
def Produces (host : Host (StateM σ)) (r : Request) (s : σ) (e : Embedding) : Prop :=
  ((produce host r).run.run s).1 = .ok e

variable [Pdf.Compressor]

theorem run_of_ok {arguments : List String} {s s' : σ} (plain : "--example" ∉ arguments)
    (done : (runRequest host (.ofArguments arguments)).run.run s = (.ok (), s')) :
    (run host arguments).run s = (0, s') := by
  simp only [run, if_neg plain, StateT.run_bind, done]
  rfl

theorem run_of_error {arguments : List String} {s s' : σ} {fault : FontError}
    (plain : "--example" ∉ arguments)
    (failed : (runRequest host (.ofArguments arguments)).run.run s = (.error fault, s')) :
    (run host arguments).run s =
      (1, ((host.printError s!"✗ {fault.message}\n").run s').2) := by
  simp only [run, if_neg plain, StateT.run_bind, failed]
  rfl

variable (serves : host.Serves system files) {r : Request} {e : Embedding} {s : σ} {after : φ}
include serves

theorem runRequest_of_produces (produced : Produces host r s e) :
    ∃ s', files s' = files s ∧
      (runRequest host r).run.run s = (writeOutput host r e).run.run s' := by
  refine ⟨((produce host r).run.run s).2, keeps_produce serves r s, ?_⟩
  rw [runRequest_eq]
  exact run_bind_of_ok (Prod.ext produced rfl) _

theorem runRequest_of_fault {fault : FontError}
    (failed : ((produce host r).run.run s).1 = .error fault) :
    ∃ s', files s' = files s ∧ (runRequest host r).run.run s = (.error fault, s') := by
  refine ⟨((produce host r).run.run s).2, keeps_produce serves r s, ?_⟩
  rw [runRequest_eq]
  exact run_bind_of_error (Prod.ext failed rfl) _

theorem files_of_runRequest_error {s' : σ} {fault : FontError}
    (failed : (runRequest host r).run.run s = (.error fault, s')) :
    files s' = files s ∨
      ∃ e, Produces host r s e ∧ LeftBehind system r e (files s) (files s') := by
  cases produced : ((produce host r).run.run s).1 with
  | error fault' =>
    obtain ⟨s₁, same, run⟩ := runRequest_of_fault serves produced
    rw [run] at failed
    cases failed
    exact .inl same
  | ok e =>
    obtain ⟨s₁, same, run⟩ := runRequest_of_produces serves produced
    rw [run] at failed
    exact .inr ⟨e, produced, same ▸ leftBehind_of_writeOutput serves failed⟩

theorem files_of_run_error {arguments : List String}
    (failed : ((run host arguments).run s).1 ≠ 0) :
    "--example" ∉ arguments ∧ (files ((run host arguments).run s).2 = files s ∨
      ∃ e, Produces host (.ofArguments arguments) s e ∧
        LeftBehind system (.ofArguments arguments) e (files s)
          (files ((run host arguments).run s).2)) := by
  by_cases plain : "--example" ∈ arguments
  · rw [run, if_pos plain] at failed
    exact absurd rfl failed
  · refine ⟨plain, ?_⟩
    rcases ran : (runRequest host (.ofArguments arguments)).run.run s with ⟨fault | _, s'⟩
    · rw [run_of_error plain ran]
      dsimp only
      rw [serves.printError]
      exact files_of_runRequest_error serves ran
    · rw [run_of_ok plain ran] at failed
      exact absurd rfl failed

theorem run_of_leftBehind {arguments : List String} (plain : "--example" ∉ arguments)
    (produced : Produces host (.ofArguments arguments) s e)
    (left : LeftBehind system (.ofArguments arguments) e (files s) after) :
    ((run host arguments).run s).1 = 1 ∧ files ((run host arguments).run s).2 = after := by
  obtain ⟨s₁, same, ran⟩ := runRequest_of_produces serves produced
  rw [← same] at left
  obtain ⟨fault, s₂, now, refused⟩ := writeOutput_of_leftBehind serves left
  rw [run_of_error plain (ran.trans refused)]
  exact ⟨rfl, (serves.printError _ s₂).trans now⟩

/-- A run that fails leaves other files behind than it has found just when the job leads to a
font and one of the two writes fails; the files are then those that this write leaves, with the
font among them if it is the second one. -/
theorem leaves_files_iff (arguments : List String) (changed : after ≠ files s) :
    ((run host arguments).run s).1 ≠ 0 ∧ files ((run host arguments).run s).2 = after ↔
      "--example" ∉ arguments ∧ ∃ e, Produces host (.ofArguments arguments) s e ∧
        LeftBehind system (.ofArguments arguments) e (files s) after := by
  constructor
  · rintro ⟨failed, now⟩
    obtain ⟨plain, same | left⟩ := files_of_run_error serves failed
    · exact absurd (now.symm.trans same) changed
    · exact ⟨plain, now ▸ left⟩
  · rintro ⟨plain, e, produced, left⟩
    obtain ⟨code, now⟩ := run_of_leftBehind serves plain produced left
    exact ⟨code ▸ by decide, now⟩

end

/-! ## A directory that does not exist -/

theorem serves_session : Session.host.Serves Workspace.system Session.workspace where
  readFile _ _ := ⟨rfl, rfl⟩
  writeFile path data s := by
    change (s.writeFile path data).1 = _ ∧ (s.writeFile path data).2.workspace = _
    rw [Session.writeFile, Workspace.system]
    dsimp only
    cases s.workspace.write path data with
    | ok workspace => exact ⟨rfl, rfl⟩
    | error fault => exact ⟨rfl, rfl⟩
  readInput _ := rfl
  print _ _ := rfl
  printError _ _ := rfl

def wholeFontJob : String := "\x7b\"font\":\"a.ttf\",\"subset\":false\x7d"

def wholeFontSession : Session :=
  .start (.ofList [("a.ttf", Sample.mappedFont), ("job.json", ⟨wholeFontJob.toUTF8.toList⟩)]) #[]

def objectsElsewhere : List String :=
  ["job.json", "-o", "out.ttf", "--pdf-objects", "missing/objects.txt"]

set_option maxRecDepth 20000 in
theorem produces_objectsElsewhere :
    ∃ e, Produces Session.host (.ofArguments objectsElsewhere) wholeFontSession e := by
  have font : ((produce Session.host (.ofArguments objectsElsewhere)).run.run
      wholeFontSession).1.toOption.isSome := by decide +kernel
  cases result : ((produce Session.host (.ofArguments objectsElsewhere)).run.run
      wholeFontSession).1 with
  | ok e => exact ⟨e, result⟩
  | error fault =>
    rw [result] at font
    cases font

/-- However the objects are compressed, the font is left behind. -/
theorem leaves_files_iff_objectsElsewhere :
    wholeFontSession.workspace.read "out.ttf" = .error .notFound ∧
      ∀ [Pdf.Compressor], (runIn wholeFontSession objectsElsewhere).1 ≠ 0 ∧
        ∃ font, (runIn wholeFontSession objectsElsewhere).2.workspace.read "out.ttf" =
          .ok font := by
  obtain ⟨e, produced⟩ := produces_objectsElsewhere
  let after : Workspace := ⟨wholeFontSession.workspace.files.insert "out.ttf" e.fontData⟩
  have absent : wholeFontSession.workspace.read "out.ttf" = .error .notFound := rfl
  have found : after.read "out.ttf" = .ok e.fontData := rfl
  have changed : after ≠ wholeFontSession.workspace := fun same => by
    rw [same, absent] at found
    cases found
  refine ⟨absent, fun {_} => ?_⟩
  have left : LeftBehind Workspace.system (.ofArguments objectsElsewhere) e
      wholeFontSession.workspace after :=
    .objects after "missing/objects.txt" FileFault.notFound.message rfl rfl rfl
  obtain ⟨failed, now⟩ := (leaves_files_iff serves_session objectsElsewhere changed).mpr
    ⟨by decide, e, produced, left⟩
  exact ⟨failed, e.fontData, by rw [runIn, now, found]⟩

end CommandLine

end FontSubset
