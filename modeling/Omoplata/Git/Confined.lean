-- SUMMARY: Which exports stay inside their directory, and which write over objects.
import Omoplata.Git.Headers
import Omoplata.Git.Reproduce
import Omoplata.Lib.Puts

/-!
# Exports and their directory

The name of a ref is taken for a path component by component, whatever the components are. A
name in `packed-refs` may step out of the directory of an export, and may lead to the place of
an object. An export writes files one after the other, first its objects and then its refs, up
to the first one that cannot be written.
-/

open Codec FileSystem

namespace Omoplata

/-- A file of an export. -/
abbrev GitPut := Put Str (List UInt8)

/-- The file of a ref, where its name leads to one. -/
def refPut (outDir : List Str) (e : Str × GitOid) : Option GitPut :=
  match stepOf ((e.1.splitOn '/').getLastD []) with
  | some (.down last) =>
      if representable (stepsOf e.1) then
        some ⟨(outDir.map Step.down ++ stepsOf e.1).dropLast, last, utf8 (e.2.hex ++ ['\n'])⟩
      else none
  | _ => none

/-- The file of a loose object. -/
def loosePut (outDir : List Str) (oid : GitOid) (content : List UInt8) : GitPut :=
  ⟨(looseShard outDir oid).map .down, looseName oid, content⟩

theorem target_loosePut (outDir : List Str) (oid : GitOid) (content : List UInt8) :
    (loosePut outDir oid content).target = looseLoc outDir oid := by
  unfold Put.target loosePut looseLoc
  rw [locate_map_down, List.nil_append]

section

variable (sha1 : List UInt8 → GitOid) (deflate : List UInt8 → List UInt8)

/-- The file of an object of an export. -/
def objectPut (outDir : List Str) (e : GitOid × GitObject) : GitPut :=
  loosePut outDir (sha1 e.2.encode) (deflate e.2.encode)

end

/-! ## An export as files one after the other -/

section

variable {sha1 : List UInt8 → GitOid} {deflate : List UInt8 → List UInt8} {outDir : List Str} {fs fs' : GitDisk}

theorem content_of_refPut {e : Str × GitOid} {p : GitPut} (h : refPut outDir e = some p) :
    p.content = utf8 (e.2.hex ++ ['\n']) := by
  unfold refPut at h
  split at h
  · split at h
    · cases h
      rfl
    · cases h
  · cases h

theorem writeRef_eq (name : Str) (oid : GitOid) :
    writeRef fs outDir name oid =
      match (refPut outDir (name, oid)).bind fun p => fs.put p.path p.name p.content with
      | none => (.error (.io (outDir.map .down ++ stepsOf name)), fs)
      | some fs => (.ok (), fs) := by
  have hwritten : (refPut outDir (name, oid)).bind (fun p => fs.put p.path p.name p.content) =
      match stepOf ((name.splitOn '/').getLastD []) with
      | some (.down last) =>
          if representable (stepsOf name) then
            fs.put (outDir.map Step.down ++ stepsOf name).dropLast last (utf8 (oid.hex ++ ['\n']))
          else none
      | _ => none := by
    unfold refPut
    simp only
    split
    · split
      · rfl
      · rfl
    · rfl
  rw [hwritten]
  rfl

/-- The objects that are written, up to the first one that cannot be or has another id. -/
theorem exportObjects_puts {ordered : List (GitOid × GitObject)} {objects : Nat} {result : Except GitError Nat}
    (h : exportObjects sha1 deflate outDir ordered objects fs = (result, fs')) :
    ∃ done rest, ordered = done ++ rest ∧ Table.putAll fs (done.map (objectPut sha1 deflate outDir)) = some fs' ∧
      (result.isOk = true → rest = []) := by
  induction ordered generalizing objects fs with
  | nil =>
      cases h
      exact ⟨[], [], rfl, rfl, fun _ => rfl⟩
  | cons e ordered ih =>
      obtain ⟨oid, object⟩ := e
      unfold exportObjects writeLoose at h
      simp only at h
      cases hput : fs.put ((looseShard outDir (sha1 object.encode)).map .down) (looseName (sha1 object.encode))
          (deflate object.encode) with
      | none =>
          simp only [hput] at h
          cases h
          exact ⟨[], _, rfl, rfl, fun hok => absurd hok Bool.false_ne_true⟩
      | some fs₁ =>
          simp only [hput] at h
          split at h
          · cases h
            exact ⟨[(oid, object)], ordered, rfl, Table.putAll_cons.mpr ⟨_, hput, rfl⟩,
              fun hok => absurd hok Bool.false_ne_true⟩
          · obtain ⟨done, rest, rfl, hdone, hrest⟩ := ih h
            exact ⟨(oid, object) :: done, rest, rfl, Table.putAll_cons.mpr ⟨_, hput, hdone⟩, hrest⟩

/-- Objects that hash to their ids and can be written are. -/
theorem exportObjects_of_puts {ordered : List (GitOid × GitObject)} (hhash : ∀ e ∈ ordered, sha1 e.2.encode = e.1)
    (h : Table.putAll fs (ordered.map (objectPut sha1 deflate outDir)) = some fs') (objects : Nat) :
    exportObjects sha1 deflate outDir ordered objects fs = (.ok (objects + ordered.length), fs') := by
  induction ordered generalizing objects fs with
  | nil =>
      cases h
      rfl
  | cons e ordered ih =>
      obtain ⟨oid, object⟩ := e
      obtain ⟨hself, hrest⟩ := List.forall_mem_cons.mp hhash
      obtain ⟨fs₁, hput, hall⟩ := Table.putAll_cons.mp h
      change fs.put ((looseShard outDir (sha1 object.encode)).map .down) (looseName (sha1 object.encode))
        (deflate object.encode) = some fs₁ at hput
      unfold exportObjects writeLoose
      simp only [hput]
      rw [if_neg (not_not.mpr hself), ih hrest hall, List.length_cons, Nat.add_assoc, Nat.add_comm 1]

/-- The refs that are written, up to the first one that cannot be. -/
theorem exportRefs_puts {refs : List (Str × GitOid)} {count : Nat} {result : Except GitError Nat}
    (h : exportRefs outDir refs count fs = (result, fs')) :
    ∃ done rest puts, refs = done ++ rest ∧ done.map (refPut outDir) = puts.map some ∧
      Table.putAll fs puts = some fs' := by
  induction refs generalizing count fs with
  | nil =>
      cases h
      exact ⟨[], [], [], rfl, rfl, rfl⟩
  | cons e refs ih =>
      obtain ⟨name, oid⟩ := e
      unfold exportRefs at h
      rw [writeRef_eq] at h
      cases hput : (refPut outDir (name, oid)).bind fun p => fs.put p.path p.name p.content with
      | none =>
          rw [hput] at h
          cases h
          exact ⟨[], _, [], rfl, rfl, rfl⟩
      | some fs₁ =>
          rw [hput] at h
          obtain ⟨p, hp, hwrite⟩ := Option.bind_eq_some_iff.mp hput
          obtain ⟨done, rest, puts, rfl, hdone, hall⟩ := ih h
          refine ⟨(name, oid) :: done, rest, p :: puts, rfl, ?_, Table.putAll_cons.mpr ⟨_, hwrite, hall⟩⟩
          rw [List.map_cons, List.map_cons, hp, hdone]

/-- Refs that can be written are. -/
theorem exportRefs_of_puts {front : List (Str × GitOid)} {puts : List GitPut}
    (hputs : front.map (refPut outDir) = puts.map some) (h : Table.putAll fs puts = some fs')
    (back : List (Str × GitOid)) (count : Nat) :
    exportRefs outDir (front ++ back) count fs = exportRefs outDir back (count + front.length) fs' := by
  induction front generalizing puts count fs with
  | nil =>
      rw [List.map_nil] at hputs
      rw [List.map_eq_nil_iff.mp hputs.symm] at h
      cases h
      rfl
  | cons e front ih =>
      obtain ⟨name, oid⟩ := e
      cases puts with
      | nil => cases hputs
      | cons p puts =>
          rw [List.map_cons, List.map_cons, List.cons.injEq] at hputs
          obtain ⟨fs₁, hput, hall⟩ := Table.putAll_cons.mp h
          have hwrite : (refPut outDir (name, oid)).bind (fun p => fs.put p.path p.name p.content) = some fs₁ := by
            rw [hputs.1]
            exact hput
          rw [List.cons_append, exportRefs, writeRef_eq, hwrite]
          refine (ih hputs.2 hall (count + 1)).trans ?_
          rw [List.length_cons, Nat.add_assoc, Nat.add_comm 1]

end

/-! ## Staying inside -/

/-- Below a directory, and not the directory itself. -/
def Below (dir loc : List Str) : Prop := dir <+: loc ∧ loc ≠ dir

/-- Every file that an export makes or changes is below its directory, and where an object stands once the
    objects are written, it still stands once the refs are. -/
structure StaysInside (sha1 : List UInt8 → GitOid) (deflate : List UInt8 → List UInt8) (made : GitImport)
    (outDir : List Str) (fs : GitDisk) : Prop where
  below : ∀ (loc : List Str) (c : List UInt8), (exportRepo sha1 deflate made outDir fs).2[loc]? = some (.file c) →
    fs[loc]? = some (.file c) ∨ Below outDir loc
  objects : ∀ (n : Nat) (fs₁ : GitDisk), exportObjects sha1 deflate outDir made.ordered 0 fs = (.ok n, fs₁) →
    ∀ (oid : GitOid) (c : List UInt8), fs₁[looseLoc outDir oid]? = some (.file c) →
      (exportRepo sha1 deflate made outDir fs).2[looseLoc outDir oid]? = some (.file c)

/-- These are the files of the first refs of an import, and can be written behind its objects: the objects hash to
    their ids, and no file is on the way to another one. -/
structure Writable (sha1 : List UInt8 → GitOid) (deflate : List UInt8 → List UInt8) (made : GitImport)
    (outDir : List Str) (puts : List GitPut) : Prop where
  hash : ∀ e ∈ made.ordered, sha1 e.2.encode = e.1
  first : ∃ front back, made.refs = front ++ back ∧ front.map (refPut outDir) = puts.map some
  apart : Put.Apart (made.ordered.map (objectPut sha1 deflate outDir) ++ puts)

/-- The file of a ref is below the directory of the export, and at no place of an object. -/
def Confined (outDir : List Str) (p : GitPut) : Prop :=
  Below outDir p.target ∧ ∀ oid, p.target ≠ looseLoc outDir oid

theorem below_looseLoc (outDir : List Str) (oid : GitOid) : Below outDir (looseLoc outDir oid) := by
  rw [looseLoc_eq]
  exact ⟨List.prefix_append _ _, fun heq => absurd (List.append_right_eq_self.mp heq) (List.cons_ne_nil _ _)⟩

section

variable {sha1 : List UInt8 → GitOid} {deflate : List UInt8 → List UInt8} {made : GitImport} {outDir : List Str}

/-- Files that can be written are written, and perhaps more refs behind them. -/
theorem exportRepo_of_writable {puts : List GitPut} (h : Writable sha1 deflate made outDir puts) {fs fs₁ fs₂ : GitDisk}
    (hobjects : Table.putAll fs (made.ordered.map (objectPut sha1 deflate outDir)) = some fs₁)
    (hputs : Table.putAll fs₁ puts = some fs₂) :
    ∃ n later, exportObjects sha1 deflate outDir made.ordered 0 fs = (.ok n, fs₁) ∧
      (∀ p ∈ later, ∃ e, refPut outDir e = some p) ∧
      Table.putAll fs₁ (puts ++ later) = some (exportRepo sha1 deflate made outDir fs).2 := by
  obtain ⟨front, back, hrefs, hfront⟩ := h.first
  have hdone := exportObjects_of_puts h.hash hobjects 0
  have hrun := exportRefs_of_puts hfront hputs back 0
  cases hback : exportRefs outDir back (0 + front.length) fs₂ with
  | mk result fs₃ =>
      obtain ⟨done, rest, later, -, hlater, hall⟩ := exportRefs_puts hback
      have hend : (exportRepo sha1 deflate made outDir fs).2 = fs₃ := by
        unfold exportRepo
        rw [hdone]
        simp only
        rw [hrefs, hrun, hback]
        cases result with
        | error e => rfl
        | ok n => rfl
      refine ⟨_, later, hdone, fun p hp => ?_, hend ▸ Table.putAll_append.mpr ⟨fs₂, hputs, hall⟩⟩
      obtain ⟨e, -, he⟩ := List.mem_map.mp (hlater ▸ List.mem_map_of_mem hp)
      exact ⟨e, he⟩

/-- The text of an id is no zlib stream. -/
theorem ne_of_zlib (hzlib : ∀ data, (deflate data).head? = some 0x78) (oid : GitOid) (data : List UInt8) :
    deflate data ≠ utf8 (oid.hex ++ ['\n']) := by
  intro heq
  have hmem : (0x78 : UInt8) ∈ utf8 (oid.hex ++ ['\n']) := heq ▸ List.mem_of_head? (hzlib data)
  refine absurd hmem (not_mem_utf8 (c := 'x') (by decide) (by decide) fun hx => ?_)
  rcases List.mem_append.mp hx with hhex | hend
  · exact absurd (GitOid.mem_hex hhex) (by decide)
  · exact absurd hend (by decide)

/-- Written to an empty disk, the file of a ref shows where its name leads. -/
theorem below_of_staysInside (hinside : ∀ fs, StaysInside sha1 deflate made outDir fs) {puts : List GitPut}
    (h : Writable sha1 deflate made outDir puts) {p : GitPut} (hp : p ∈ puts) : Below outDir p.target := by
  obtain ⟨fs₂, hall⟩ := Table.exists_putAll_iff.mpr h.apart
  obtain ⟨fs₁, hobjects, hputs⟩ := Table.putAll_append.mp hall
  obtain ⟨n, later, -, -, hend⟩ := exportRepo_of_writable h hobjects hputs
  obtain ⟨q, -, -, hfile⟩ := Table.putAll_target hend (List.mem_append_left later hp)
  refine ((hinside ∅).below _ _ hfile).resolve_left fun hold => ?_
  rw [Std.ExtTreeMap.getElem?_empty] at hold
  cases hold

/-- The way to the place of an object is part of the way of a file that stands there. -/
theorem way_loosePut {p : GitPut} {oid : GitOid} (htarget : p.target = looseLoc outDir oid) :
    ∀ l ∈ (loosePut outDir oid []).way, l ∈ p.way := by
  intro l hl
  obtain ⟨front, hne, hfront, rfl⟩ := mem_stepped_map_down.mp hl
  unfold Put.target looseLoc at htarget
  apply mem_stepped_of_prefix _ hne
  rw [(List.append_inj' htarget rfl).1]
  exact hfront

/-- And written to a disk with an object at this place, it writes over it. -/
theorem ne_looseLoc_of_staysInside (hzlib : ∀ data, (deflate data).head? = some 0x78)
    (hinside : ∀ fs, StaysInside sha1 deflate made outDir fs) {puts : List GitPut}
    (h : Writable sha1 deflate made outDir puts) {p : GitPut} (hp : p ∈ puts) (oid : GitOid) :
    p.target ≠ looseLoc outDir oid := by
  intro htarget
  obtain ⟨old, hold⟩ : ∃ old, old = loosePut outDir oid [] := ⟨_, rfl⟩
  have hplace : old.target = p.target := by rw [hold, target_loosePut, htarget]
  have hway : ∀ l ∈ old.way, l ∈ p.way := hold ▸ way_loosePut htarget
  have hapart := h.apart.cons (List.mem_append_right _ hp) hplace hway
  obtain ⟨fs₂, hall⟩ := Table.exists_putAll_iff.mpr hapart
  obtain ⟨fs₀, hfirst, hrest⟩ := Table.putAll_cons.mp hall
  obtain ⟨fs₁, hobjects, hputs⟩ := Table.putAll_append.mp hrest
  obtain ⟨n, later, hdone, hlater, hend⟩ := exportRepo_of_writable h hobjects hputs
  have hstands := (Table.put_eq_some hfirst).2.1
  rw [hplace, hold] at hstands
  -- at this place there is nothing of the export, or one of its objects
  obtain ⟨c, hobject⟩ := Table.putAll_keeps_file hobjects hstands
  have hkept := (hinside fs₀).objects n fs₁ hdone oid c (htarget ▸ hobject)
  rw [← htarget] at hkept
  obtain ⟨q, hq, -, hfile⟩ := Table.putAll_target hend (List.mem_append_left later hp)
  obtain ⟨e, he⟩ : ∃ e, refPut outDir e = some q := by
    rcases List.mem_append.mp hq with hfront | hback
    · obtain ⟨front, back, -, hfrontPuts⟩ := h.first
      obtain ⟨e, -, he⟩ := List.mem_map.mp (hfrontPuts ▸ List.mem_map_of_mem hfront)
      exact ⟨e, he⟩
    · exact hlater q hback
  have hcontent : c = utf8 (e.2.hex ++ ['\n']) := by
    rw [← content_of_refPut he]
    exact Entry.file.inj (Option.some.inj (hkept.symm.trans hfile))
  rcases Table.putAll_file hobjects hobject with ⟨hsame, -⟩ | ⟨r, hr, -, hdeflated⟩
  · have hempty : [] = c := Entry.file.inj (Option.some.inj (hstands.symm.trans hsame))
    rw [← hempty, utf8_append] at hcontent
    exact absurd (List.append_eq_nil_iff.mp hcontent.symm).2 (by decide)
  · obtain ⟨object, -, rfl⟩ := List.mem_map.mp hr
    exact ne_of_zlib hzlib _ _ (hdeflated.trans hcontent)

theorem below_objectPut (e : GitOid × GitObject) : Below outDir (objectPut sha1 deflate outDir e).target := by
  unfold objectPut
  rw [target_loosePut]
  exact below_looseLoc outDir _

/-- Objects that cannot be written end an export. -/
theorem exportRepo_of_error {e : GitError} (h : exportObjects sha1 deflate outDir made.ordered 0 fs = (.error e, fs')) :
    (exportRepo sha1 deflate made outDir fs).2 = fs' := by
  unfold exportRepo
  rw [h]

/-- Behind its objects an export writes the refs. -/
theorem exportRepo_of_ok {n : Nat} {fs₁ : GitDisk} {result : Except GitError Nat}
    (hobjects : exportObjects sha1 deflate outDir made.ordered 0 fs = (.ok n, fs₁))
    (hrefs : exportRefs outDir made.refs 0 fs₁ = (result, fs')) :
    (exportRepo sha1 deflate made outDir fs).2 = fs' := by
  unfold exportRepo
  rw [hobjects]
  simp only
  rw [hrefs]
  cases result with
  | error e => rfl
  | ok count => rfl

/-- An export of refs that are confined as far as they can be written stays inside. -/
theorem staysInside_of_confined (h : ∀ puts, Writable sha1 deflate made outDir puts → ∀ p ∈ puts, Confined outDir p)
    (fs : GitDisk) : StaysInside sha1 deflate made outDir fs := by
  cases hobjects : exportObjects sha1 deflate outDir made.ordered 0 fs with
  | mk result fs₁ =>
      obtain ⟨done, rest, hordered, hdone, hall⟩ := exportObjects_puts hobjects
      have hobjectPut : ∀ q ∈ done.map (objectPut sha1 deflate outDir), Below outDir q.target :=
        List.forall_mem_map.mpr fun e _ => below_objectPut e
      cases result with
      | error e =>
          rw [← exportRepo_of_error hobjects] at hdone
          refine ⟨fun loc c hfile => ?_, fun n fs₂ hok => ?_⟩
          · rcases Table.putAll_file hdone hfile with ⟨hold, -⟩ | ⟨q, hq, rfl, -⟩
            · exact .inl hold
            · exact .inr (hobjectPut q hq)
          · cases hobjects.symm.trans hok
      | ok n =>
          obtain rfl := hall rfl
          rw [List.append_nil] at hordered
          cases hrefs : exportRefs outDir made.refs 0 fs₁ with
          | mk result fs₂ =>
              obtain ⟨front, back, puts, hsplit, hputs, hwritten⟩ := exportRefs_puts hrefs
              have hboth := Table.putAll_append.mpr ⟨fs₁, hdone, hwritten⟩
              have hconfined := h puts ⟨hash_of_exportObjects hobjects, ⟨front, back, hsplit, hputs⟩,
                hordered ▸ Table.apart_of_putAll hboth⟩
              rw [← exportRepo_of_ok hobjects hrefs] at hwritten hboth
              refine ⟨fun loc c hfile => ?_, fun m fs₃ hok oid c hstands => ?_⟩
              · rcases Table.putAll_file hboth hfile with ⟨hold, -⟩ | ⟨q, hq, rfl, -⟩
                · exact .inl hold
                · rcases List.mem_append.mp hq with hobject | href
                  · exact .inr (hobjectPut q hobject)
                  · exact .inr (hconfined q href).1
              · cases hobjects.symm.trans hok
                obtain ⟨c', hfile⟩ := Table.putAll_keeps_file hwritten hstands
                rcases Table.putAll_file hwritten hfile with ⟨hsame, -⟩ | ⟨q, hq, htarget, -⟩
                · rw [hfile]
                  exact hsame.symm.trans hstands
                · exact absurd htarget ((hconfined q hq).2 oid)

end

/-- An export stays inside on every disk exactly where each ref that can be written behind the objects and the
    refs before it leads below the directory, and to no place of an object. -/
theorem export_staysInside_iff {sha1 : List UInt8 → GitOid} {deflate : List UInt8 → List UInt8}
    (hzlib : ∀ data, (deflate data).head? = some 0x78) (made : GitImport) (outDir : List Str) :
    (∀ fs, StaysInside sha1 deflate made outDir fs) ↔
      ∀ puts, Writable sha1 deflate made outDir puts → ∀ p ∈ puts, Confined outDir p :=
  ⟨fun hinside _ h _ hp => ⟨below_of_staysInside hinside h hp, ne_looseLoc_of_staysInside hzlib hinside h hp⟩,
    staysInside_of_confined⟩

/-! ## Names as git has them -/

/-- The file of a ref with a proper name is where the name says. -/
theorem target_refPut {outDir : List Str} {names : List Str} (h : RefNames names) {e : Str × GitOid} (he : e.1 ∈ names)
    {p : GitPut} (hp : refPut outDir e = some p) : p.target = refLoc outDir e.1 := by
  obtain ⟨hsteps, hrepresentable⟩ := steps_of_refName h he
  obtain ⟨front, last, hsplit⟩ : ∃ front last, e.1.splitOn '/' = front ++ [last] :=
    ⟨_, _, (List.dropLast_concat_getLast (List.splitOn_ne_nil _ _)).symm⟩
  have hstep : stepOf last = some (.down last) := by
    obtain ⟨hne, hdot, hdots, -⟩ := h.proper e.1 he last (by rw [hsplit]; simp)
    unfold stepOf
    rw [if_neg (not_or.mpr ⟨hne, hdot⟩), if_neg hdots]
  have hpath : (outDir.map Step.down ++ stepsOf e.1).dropLast = (outDir ++ front).map Step.down := by
    rw [hsteps, hsplit, ← List.map_append, ← List.append_assoc, List.map_append, List.map_singleton,
      List.dropLast_concat]
  unfold refPut at hp
  simp only [hsplit, List.getLastD_concat, hstep, hrepresentable, if_true, hpath, Option.some.injEq] at hp
  rw [← hp]
  unfold Put.target refLoc
  rw [locate_map_down, List.nil_append, hsplit, List.append_assoc]

/-- Refs with proper names are confined. -/
theorem confined_of_refNames {outDir : List Str} {names : List Str} (h : RefNames names) {e : Str × GitOid}
    (he : e.1 ∈ names) {p : GitPut} (hp : refPut outDir e = some p) : Confined outDir p := by
  obtain ⟨c, rest, hloc, -⟩ := refLoc_eq outDir h he
  unfold Confined
  rw [target_refPut h he hp]
  refine ⟨?_, fun oid heq => ?_⟩
  · rw [hloc]
    exact ⟨List.prefix_append _ _, fun heq => absurd (List.append_right_eq_self.mp heq) (List.cons_ne_nil _ _)⟩
  · refine (@not_prefix_refLoc outDir names h e.1 he [oid.hex.take 2, looseName oid]).2 ?_
    rw [heq, looseLoc_eq]

/-- A tag is exported inside, on every disk. -/
theorem export_staysInside_tag :
    ∃ made repo', importRepo .ofSha1 Pack.inflateStored .ofSha256 1 2 (tagDisk ["hi"]) tagDir .init = .ok (made, repo') ∧
      ∀ fs, StaysInside .ofSha1 deflateStored made copyDir fs := by
  have hrun : (match importRepo .ofSha1 Pack.inflateStored .ofSha256 1 2 (tagDisk ["hi"]) tagDir .init with
      | .error _ => false
      | .ok (made, _) => decide (RefNames (made.refs.map Prod.fst))) = true := by
    decide +kernel
  split at hrun
  · cases hrun
  · rename_i made repo' himport
    have hnames := of_decide_eq_true hrun
    refine ⟨made, repo', himport, (export_staysInside_iff (fun data => rfl) made copyDir).mpr fun puts h p hp => ?_⟩
    obtain ⟨front, back, hrefs, hputs⟩ := h.first
    obtain ⟨e, he, hput⟩ := List.mem_map.mp (hputs ▸ List.mem_map_of_mem hp)
    refine confined_of_refNames hnames (List.mem_map_of_mem ?_) hput
    rw [hrefs]
    exact List.mem_append_left _ he

/-- The tag of before, and packed refs beside the git directory and at the place of its blob. -/
def strayDisk : GitDisk :=
  let line := fun name : Str => (Pack.blobOid "hi").hex ++ ' ' :: name ++ ['\n']
  let blobName := "objects/".toList ++ (Pack.blobOid "hi").hex.take 2 ++ '/' :: looseName (Pack.blobOid "hi")
  ((tagDisk ["hi"]).put (tagDir.map .down) "packed-refs".toList
    (utf8 (line "../evil".toList ++ line blobName))).getD ∅

/-- The packed refs of a source are written beside the export, and over an object of it. -/
theorem export_staysInside_fails :
    ∃ made repo', importRepo .ofSha1 Pack.inflateStored .ofSha256 1 4 strayDisk tagDir .init = .ok (made, repo') ∧
      (exportRepo .ofSha1 deflateStored made copyDir strayDisk).2[["evil".toList]]? =
        some (.file (utf8 ((Pack.blobOid "hi").hex ++ ['\n']))) ∧
      (exportRepo .ofSha1 deflateStored made copyDir strayDisk).2[looseLoc copyDir (Pack.blobOid "hi")]? =
        some (.file (utf8 ((Pack.blobOid "hi").hex ++ ['\n']))) ∧
      ¬ StaysInside .ofSha1 deflateStored made copyDir strayDisk := by
  have hrun : (match importRepo .ofSha1 Pack.inflateStored .ofSha256 1 4 strayDisk tagDir .init with
      | .error _ => false
      | .ok (made, _) =>
          let fs' := (exportRepo .ofSha1 deflateStored made copyDir strayDisk).2
          let text := Entry.file (utf8 ((Pack.blobOid "hi").hex ++ ['\n']))
          decide (fs'[["evil".toList]]? = some text ∧ fs'[looseLoc copyDir (Pack.blobOid "hi")]? = some text)) = true := by
    decide +kernel
  split at hrun
  · cases hrun
  · rename_i made repo' himport
    obtain ⟨hevil, hobject⟩ := of_decide_eq_true hrun
    refine ⟨made, repo', himport, hevil, hobject, fun h => ?_⟩
    rcases h.below _ _ hevil with hold | ⟨hfront, -⟩
    · have hnone : strayDisk[["evil".toList]]? = none := by decide +kernel
      cases hnone.symm.trans hold
    · exact absurd hfront (by decide)

end Omoplata
