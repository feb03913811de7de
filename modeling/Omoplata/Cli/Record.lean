-- SUMMARY: Where submission records are kept: the path an id gives, and which ids keep to the directory.
import Omoplata.Drivers.Select
import Omoplata.Identity
import Omoplata.Store.Path

/-!
# Submission records

A submission is kept in a file under the control directory, named after its id. The id
is joined to the directory as it stands, so that it may step up, down, or start over
at the root.
-/

open FileSystem

namespace Omoplata

/-! ## Paths -/

/-- The directory for submissions below a control directory. -/
def submissionsDir (control : List Str) : List Str := control ++ ["submissions".toList]

def submissionPath (control : List Str) (id : SubmissionId) : List (Step Str) :=
  joinPath ((submissionsDir control).map .down) (id ++ ".json".toList)

/-- The name of a temporary sibling of a path. -/
def tempSibling (pid counter : Nat) (path : List (Step Str)) : List (Step Str) :=
  path.dropLast ++ [.down (['.'] ++ (pathFileName path).getD "omoplata".toList ++ ".tmp.".toList ++
    Nat.toDigits 10 pid ++ ['.'] ++ Nat.toDigits 10 counter)]

/-! ## Records -/

section

variable {α : Type}

/-- The location of the file a path names, with its directories followed. -/
def fileAt (fs : Volume Str α) (path : List (Step Str)) : Option (List Str) := do
  let name ← pathFileName path
  let dir ← follow fs [] path.dropLast
  some (dir ++ [name])

/-- Write a file through a temporary sibling. -/
def atomicWrite (fs : Volume Str α) (pid counter : Nat) (path : List (Step Str)) (bytes : α) :
    Option (Volume Str α) := do
  let tmp ← fileAt fs (tempSibling pid counter path)
  let fs ← writeAt fs tmp bytes
  let target ← fileAt fs path
  moveFile fs tmp target

/-- Keep a submission in its file. -/
def saveSubmission (encode : Submission → α) (control : List Str) (pid counter : Nat) (sub : Submission)
    (fs : Volume Str α) : Option (Volume Str α) :=
  let path := submissionPath control sub.id
  if representable path then do
    let fs ← makeDirs fs [] path.dropLast
    atomicWrite fs pid counter path (encode sub)
  else none

/-- Read a submission back from its file. -/
def loadSubmission (decode : α → Option Submission) (control : List Str) (id : SubmissionId)
    (fs : Volume Str α) : Option Submission :=
  let path := submissionPath control id
  if representable path then
    match (fileAt fs path).bind fs with
    | some (.file bytes) => decode bytes
    | _ => none
  else none

end

/-! ## The path of an id -/

/-- The directory part of the path of an id. -/
def submissionDir (control : List Str) (id : SubmissionId) : List (Step Str) :=
  let steps := (id.splitOn '/').dropLast.filterMap stepOf
  if id.head? = some '/' then steps else (submissionsDir control).map .down ++ steps

/-- The last component of an id with the extension. -/
def submissionFile (id : SubmissionId) : Str := fileName id ++ ".json".toList

/-- A text that holds no slash only changes the last component of what it is appended to. -/
theorem splitOn_append_of_not_mem (s : Str) {t : Str} (h : '/' ∉ t) :
    (s ++ t).splitOn '/' = (s.splitOn '/').dropLast ++ [fileName s ++ t] := by
  unfold fileName
  by_cases hs : '/' ∈ s
  · obtain ⟨back, front, heq, hback⟩ := List.eq_append_cons_of_mem (List.mem_reverse.mpr hs)
    obtain rfl : s = front.reverse ++ '/' :: back.reverse := by
      rw [← List.reverse_reverse s, heq]
      simp
    have hlast : '/' ∉ back.reverse := by simpa using hback
    have hlast' : '/' ∉ back.reverse ++ t := by simp [hback, h]
    rw [List.append_assoc, List.cons_append, List.splitOn_append_cons_self,
      List.splitOn_append_cons_self, List.splitOn_eq_singleton hlast, List.splitOn_eq_singleton hlast']
    simp
  · have hs' : '/' ∉ s ++ t := by simp [hs, h]
    rw [List.splitOn_eq_singleton hs, List.splitOn_eq_singleton hs']
    simp

theorem submissionPath_eq (control : List Str) (id : SubmissionId) :
    submissionPath control id = submissionDir control id ++ [.down (submissionFile id)] := by
  have hstep : stepOf (submissionFile id) = some (.down (submissionFile id)) := by
    have hne : ∀ t : Str, t.length < 5 → submissionFile id ≠ t := by
      rintro t ht rfl
      have hlength : (submissionFile id).length = (fileName id).length + 5 := List.length_append ..
      omega
    unfold stepOf
    rw [if_neg (not_or.mpr ⟨hne _ (by decide), hne _ (by decide)⟩), if_neg (hne _ (by decide))]
  have hhead : (id ++ ".json".toList).head? = some '/' ↔ id.head? = some '/' := by
    cases id with
    | nil => decide
    | cons c id => rfl
  unfold submissionPath joinPath submissionDir stepsOf
  have hlast : [fileName id ++ ".json".toList].filterMap stepOf = [.down (submissionFile id)] := by
    show [submissionFile id].filterMap stepOf = _
    rw [List.filterMap_cons_some hstep, List.filterMap_nil]
  rw [splitOn_append_of_not_mem id (by decide), List.filterMap_append, hlast]
  simp only [hhead]
  split
  · rfl
  · rw [List.append_assoc]

/-- Where the file of an id is. -/
def submissionTarget (control : List Str) (id : SubmissionId) : List Str :=
  locate [] (submissionDir control id) ++ [submissionFile id]

/-- Where the temporary sibling of the file is. -/
def submissionTemp (control : List Str) (pid counter : Nat) (id : SubmissionId) : List Str :=
  locate [] (submissionDir control id) ++ [['.'] ++ submissionFile id ++ ".tmp.".toList ++
    Nat.toDigits 10 pid ++ ['.'] ++ Nat.toDigits 10 counter]

/-- The directory part of an id leads back to the directory for submissions. -/
def InPlace (control : List Str) (id : SubmissionId) : Prop :=
  locate [] (submissionDir control id) = submissionsDir control

instance (control : List Str) (id : SubmissionId) : Decidable (InPlace control id) := by
  unfold InPlace
  infer_instance

/-- An id without a slash stays in place, and is the name of its file. -/
theorem inPlace_of_not_mem (control : List Str) {id : SubmissionId} (h : '/' ∉ id) :
    InPlace control id ∧ fileName id = id := by
  have hhead : id.head? ≠ some '/' := fun hhead => h (List.mem_of_mem_head? hhead)
  unfold InPlace submissionDir fileName
  rw [List.splitOn_eq_singleton h, if_neg hhead]
  refine ⟨?_, rfl⟩
  simp [locate_map_down]

/-- The system lets an id be saved: its path can be represented, no file is in the way of its
    directories, and no directory where its file or the temporary sibling goes. -/
structure Clear {α : Type} (fs : Volume Str α) (control : List Str) (pid counter : Nat)
    (id : SubmissionId) : Prop where
  representable : representable (submissionPath control id) = true
  way : ∀ l ∈ stepped [] (submissionDir control id), ∀ c, fs l ≠ some (.file c)
  place : ∀ l ∈ [submissionTarget control id, submissionTemp control pid counter id],
    fs l ≠ some .directory ∧ l ∉ stepped [] (submissionDir control id)

theorem submissionTemp_ne (control : List Str) (pid counter : Nat) (id : SubmissionId) :
    submissionTemp control pid counter id ≠ submissionTarget control id := by
  intro heq
  have hname := List.append_cancel_left heq
  have hlength := congrArg (fun names => (names.map List.length).sum) hname
  simp at hlength
  omega

section

variable {α : Type} {fs : Volume Str α} {control : List Str} {pid counter : Nat}

theorem pathFileName_submissionPath (id : SubmissionId) :
    pathFileName (submissionPath control id) = some (submissionFile id) := by
  simp [pathFileName, submissionPath_eq]

theorem fileAt_submissionPath (fs : Volume Str α) (id : SubmissionId) (l : List Str) :
    fileAt fs (submissionPath control id) = some l ↔
      (∀ d ∈ stepped [] (submissionDir control id), fs d = some .directory) ∧ submissionTarget control id = l := by
  unfold fileAt
  rw [pathFileName_submissionPath, submissionPath_eq, List.dropLast_concat]
  simp only [Option.bind_eq_bind, Option.bind_some, Option.bind_eq_some_iff, Option.some.injEq,
    follow_eq_some_iff]
  constructor
  · rintro ⟨dir, ⟨hdirs, rfl⟩, rfl⟩
    exact ⟨hdirs, rfl⟩
  · rintro ⟨hdirs, rfl⟩
    exact ⟨_, ⟨hdirs, rfl⟩, rfl⟩

theorem fileAt_tempSibling (fs : Volume Str α) (id : SubmissionId) (l : List Str) :
    fileAt fs (tempSibling pid counter (submissionPath control id)) = some l ↔
      (∀ d ∈ stepped [] (submissionDir control id), fs d = some .directory) ∧
        submissionTemp control pid counter id = l := by
  unfold fileAt tempSibling
  rw [pathFileName_submissionPath, submissionPath_eq, List.dropLast_concat]
  simp only [pathFileName, List.getLast?_concat, List.dropLast_concat, Option.bind_eq_bind, Option.bind_some,
    Option.bind_eq_some_iff, Option.some.injEq, follow_eq_some_iff, Option.getD_some]
  constructor
  · rintro ⟨dir, ⟨hdirs, rfl⟩, rfl⟩
    exact ⟨hdirs, rfl⟩
  · rintro ⟨hdirs, rfl⟩
    exact ⟨_, ⟨hdirs, rfl⟩, rfl⟩

/-- What a save leaves, once its directories are made. -/
def savedIn (fs : Volume Str α) (control : List Str) (pid counter : Nat) (id : SubmissionId) (bytes : α) :
    Volume Str α :=
  Function.update (Function.update (Function.update fs (submissionTemp control pid counter id)
    (some (.file bytes))) (submissionTemp control pid counter id) none)
    (submissionTarget control id) (some (.file bytes))

theorem atomicWrite_eq_some_iff {fs fs' : Volume Str α} {id : SubmissionId} (bytes : α)
    (hdirs : ∀ d ∈ stepped [] (submissionDir control id), fs d = some .directory) :
    atomicWrite fs pid counter (submissionPath control id) bytes = some fs' ↔
      (∀ l ∈ [submissionTarget control id, submissionTemp control pid counter id], fs l ≠ some .directory) ∧
        fs' = savedIn fs control pid counter id bytes := by
  have htmp := (fileAt_tempSibling fs id (submissionTemp control pid counter id)).mpr ⟨hdirs, rfl⟩
  unfold atomicWrite
  simp only [htmp, Option.bind_eq_bind, Option.bind_some, List.forall_mem_cons,
    List.not_mem_nil, false_implies, implies_true, and_true]
  by_cases htemp : fs (submissionTemp control pid counter id) = some .directory
  · simp [writeAt, htemp]
  · rw [writeAt_of_ne htemp, Option.bind_some]
    have htarget := (fileAt_submissionPath (Function.update fs (submissionTemp control pid counter id)
      (some (.file bytes))) id (submissionTarget control id)).mpr ⟨fun d hd => ?_, rfl⟩
    · rw [htarget, Option.bind_some]
      unfold moveFile
      rw [Function.update_self]
      have hentry : Function.update (Function.update fs (submissionTemp control pid counter id)
          (some (.file bytes))) (submissionTemp control pid counter id) none (submissionTarget control id) =
          fs (submissionTarget control id) := by
        rw [Function.update_of_ne (submissionTemp_ne control pid counter id).symm,
          Function.update_of_ne (submissionTemp_ne control pid counter id).symm]
      constructor
      · intro hmove
        obtain ⟨hplace, heq⟩ := writeAt_eq_some hmove
        rw [hentry] at hplace
        exact ⟨⟨hplace, htemp⟩, heq⟩
      · rintro ⟨⟨hplace, -⟩, rfl⟩
        rw [← hentry] at hplace
        exact writeAt_of_ne hplace bytes
    · rw [Function.update_of_ne, hdirs d hd]
      rintro rfl
      exact htemp (hdirs _ hd)

/-- A save goes through exactly where the system lets it, and leaves the directories on its
    way with its file. -/
theorem saveSubmission_eq_some_iff {encode : Submission → α} {sub : Submission} {fs' : Volume Str α} :
    saveSubmission encode control pid counter sub fs = some fs' ↔
      Clear fs control pid counter sub.id ∧
        ∃ fs₁, makeDirs fs [] (submissionDir control sub.id) = some fs₁ ∧
          fs' = savedIn fs₁ control pid counter sub.id (encode sub) := by
  unfold saveSubmission
  by_cases hrep : representable (submissionPath control sub.id) = true
  · rw [if_pos hrep, submissionPath_eq, List.dropLast_concat, ← submissionPath_eq]
    simp only [Option.bind_eq_bind, Option.bind_eq_some_iff]
    constructor
    · rintro ⟨fs₁, hmake, hwrite⟩
      have hway := (makeDirs_isSome_iff fs [] _).mp (Option.isSome_of_eq_some hmake)
      have hdirs := fun d hd => (makeDirs_directory_iff hmake d).mpr (.inr hd)
      obtain ⟨hfree, heq⟩ := (atomicWrite_eq_some_iff _ hdirs).mp hwrite
      refine ⟨⟨hrep, hway, fun l hl => ?_⟩, fs₁, hmake, heq⟩
      rw [← not_or, ← makeDirs_directory_iff hmake]
      exact hfree l hl
    · rintro ⟨hclear, fs₁, hmake, rfl⟩
      have hdirs := fun d hd => (makeDirs_directory_iff hmake d).mpr (.inr hd)
      refine ⟨fs₁, hmake, (atomicWrite_eq_some_iff _ hdirs).mpr ⟨fun l hl => ?_, rfl⟩⟩
      rw [Ne, makeDirs_directory_iff hmake, not_or]
      exact hclear.place l hl
  · rw [if_neg hrep]
    simp only [reduceCtorEq, false_iff, not_and]
    exact fun hclear => absurd hclear.representable hrep

/-- What has been saved is read back. -/
theorem loadSubmission_of_saved {encode : Submission → α} {decode : α → Option Submission}
    {sub : Submission} {fs' : Volume Str α} (hjson : decode (encode sub) = some sub)
    (h : saveSubmission encode control pid counter sub fs = some fs') :
    loadSubmission decode control sub.id fs' = some sub := by
  obtain ⟨hclear, fs₁, hmake, rfl⟩ := saveSubmission_eq_some_iff.mp h
  have hat := (fileAt_submissionPath (savedIn fs₁ control pid counter sub.id (encode sub)) sub.id
    (submissionTarget control sub.id)).mpr ⟨fun d hd => ?_, rfl⟩
  · unfold loadSubmission
    rw [if_pos hclear.representable, hat, Option.bind_some]
    simp [savedIn, hjson]
  · have htarget := hclear.place (submissionTarget control sub.id) (by simp)
    have htemp := hclear.place (submissionTemp control pid counter sub.id) (by simp)
    unfold savedIn
    have hne : d ≠ submissionTarget control sub.id := fun heq => htarget.2 (heq ▸ hd)
    have hne' : d ≠ submissionTemp control pid counter sub.id := fun heq => htemp.2 (heq ▸ hd)
    rw [Function.update_of_ne hne, Function.update_of_ne hne', Function.update_of_ne hne']
    exact (makeDirs_directory_iff hmake d).mpr (.inr hd)

/-! ## Records in their place -/

/-- A submission is saved as one file directly inside the directory for submissions, writing no
    other file, and is read back from there. -/
def SavedInPlace (encode : Submission → α) (decode : α → Option Submission) (control : List Str)
    (pid counter : Nat) (sub : Submission) (fs : Volume Str α) : Prop :=
  ∃ fs', saveSubmission encode control pid counter sub fs = some fs' ∧
    fs' (submissionTarget control sub.id) = some (.file (encode sub)) ∧
    (∀ l, l ≠ submissionTarget control sub.id → ∀ c, fs' l = some (.file c) → fs l = some (.file c)) ∧
    loadSubmission decode control sub.id fs' = some sub ∧
    ∃ name, submissionTarget control sub.id = submissionsDir control ++ [name]

theorem submissionTarget_inside_iff (control : List Str) (id : SubmissionId) :
    (∃ name, submissionTarget control id = submissionsDir control ++ [name]) ↔ InPlace control id := by
  unfold submissionTarget InPlace
  constructor
  · rintro ⟨name, heq⟩
    exact (List.append_inj' heq rfl).1
  · exact fun heq => ⟨_, by rw [heq]⟩

theorem savedInPlace_iff {encode : Submission → α} {decode : α → Option Submission} {sub : Submission}
    (hjson : decode (encode sub) = some sub) :
    SavedInPlace encode decode control pid counter sub fs ↔
      Clear fs control pid counter sub.id ∧ InPlace control sub.id := by
  unfold SavedInPlace
  constructor
  · rintro ⟨fs', hsave, -, -, -, hinside⟩
    exact ⟨(saveSubmission_eq_some_iff.mp hsave).1, (submissionTarget_inside_iff control _).mp hinside⟩
  · rintro ⟨hclear, hplace⟩
    obtain ⟨fs₁, hmake⟩ := Option.isSome_iff_exists.mp ((makeDirs_isSome_iff fs [] _).mpr hclear.way)
    have hsave := (@saveSubmission_eq_some_iff α fs control pid counter encode sub _).mpr
      ⟨hclear, fs₁, hmake, rfl⟩
    refine ⟨_, hsave, by simp [savedIn], fun l hl c hfile => ?_, loadSubmission_of_saved hjson hsave,
      (submissionTarget_inside_iff control _).mpr hplace⟩
    unfold savedIn at hfile
    rw [Function.update_of_ne hl] at hfile
    by_cases htemp : l = submissionTemp control pid counter sub.id
    · simp [htemp] at hfile
    · rw [Function.update_of_ne htemp, Function.update_of_ne htemp] at hfile
      exact (makeDirs_file_iff hmake l c).mp hfile

/-- Two submissions are each kept directly inside the directory for submissions, and in
    different files, exactly where the system lets both be saved, both ids stay in place,
    and they end in different components. -/
theorem submissions_in_place_iff {encode : Submission → α} {decode : α → Option Submission}
    {a b : Submission} (hjson : ∀ sub ∈ [a, b], decode (encode sub) = some sub) (control : List Str)
    (pid counter : Nat) (fs : Volume Str α) :
    (SavedInPlace encode decode control pid counter a fs ∧
        SavedInPlace encode decode control pid counter b fs ∧
        submissionTarget control a.id ≠ submissionTarget control b.id) ↔
      (Clear fs control pid counter a.id ∧ InPlace control a.id) ∧
        (Clear fs control pid counter b.id ∧ InPlace control b.id) ∧ fileName a.id ≠ fileName b.id := by
  rw [savedInPlace_iff (hjson a (by simp)), savedInPlace_iff (hjson b (by simp))]
  refine and_congr_right fun ⟨_, ha⟩ => and_congr_right fun ⟨_, hb⟩ => not_congr ?_
  unfold submissionTarget submissionFile
  rw [ha, hb]
  simp

end

/-- The text of a pending submission without changes. -/
def pendingText (sub : Submission) : Str :=
  "\x7b\n  \"id\": \"".toList ++ sub.id ++ "\",\n  \"title\": \"\",\n  \"changes\": [],\n".toList ++
    "  \"author\": \"\",\n  \"approval\": \"Pending\"\n\x7d".toList

/-- A control directory and the directories above it. -/
def controlOnly : Volume Str Str := fun l =>
  if l <+: ["r".toList, ".omoplata".toList] then some .directory else none

theorem submissions_in_place_iff_plain :
    let a := Submission.new "a".toList [] [] []
    let b := Submission.new "b".toList [] [] []
    let decode := fun text => [a, b].find? fun sub => pendingText sub = text
    let control := ["r".toList, ".omoplata".toList]
    SavedInPlace pendingText decode control 7 0 a controlOnly ∧
      SavedInPlace pendingText decode control 7 0 b controlOnly ∧
      submissionTarget control a.id ≠ submissionTarget control b.id := by
  intro a b decode control
  have hfile : ∀ l c, controlOnly l ≠ some (.file c) := by
    intro l c
    unfold controlOnly
    split <;> simp
  refine (submissions_in_place_iff (by decide +kernel) control 7 0 controlOnly).mpr
    ⟨⟨⟨by decide +kernel, fun l _ => hfile l, ?_⟩, by decide +kernel⟩,
      ⟨⟨by decide +kernel, fun l _ => hfile l, ?_⟩, by decide +kernel⟩, by decide +kernel⟩
  · decide +kernel
  · decide +kernel

/-- An id that steps up is saved outside the directory, and one that stays with a dot shares
    the file of another id. -/
theorem submissions_out_of_place :
    let control := ["r".toList, ".omoplata".toList]
    let up := Submission.new "../queues".toList [] [] []
    ((saveSubmission pendingText control 7 0 up controlOnly).bind fun fs =>
        fs (control ++ ["queues.json".toList])) = some (.file (pendingText up)) ∧
      ¬ InPlace control up.id ∧
      submissionTarget control "./a".toList = submissionTarget control "a".toList := by
  decide +kernel

end Omoplata
