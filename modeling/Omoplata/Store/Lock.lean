-- SUMMARY: Writing object files through temporary siblings: racing writers, crashes, and readers without a lock.
import Omoplata.Lib.Staged
import Omoplata.Store.Repository

/-!
# Writing object files

An object that is not there is written to a temporary sibling of its file and renamed into
place. No lock is taken: processes that write the same object race for its file, they may die
or fail at any point, and the machine may lose its power.

The shards that are there at the start have reached the disk. A shard that is made for an
object may be lost with the power, since the directory above it is not synced.
-/

open Relation Staged

namespace Omoplata

/-! ## Names -/

/-- The name of a temporary sibling of a file. -/
def tempName (pid counter : Nat) (name : Str) : Str :=
  ['.'] ++ name ++ ".tmp.".toList ++ Nat.toDigits 10 pid ++ ['.'] ++ Nat.toDigits 10 counter

/-- The directory and the name of an object file below the objects of its algorithm. -/
def ObjectId.shard (id : ObjectId) : Str := (hexEncode id.digest).take 2

def ObjectId.rest (id : ObjectId) : Str := (hexEncode id.digest).drop 2

theorem dot_notMem_toDigits (n : Nat) : '.' ∉ Nat.toDigits 10 n := fun h =>
  absurd (Nat.isDigit_of_mem_toDigits (by omega) (by omega) h) (by decide)

theorem toDigits_injective {n m : Nat} (h : Nat.toDigits 10 n = Nat.toDigits 10 m) : n = m := by
  have hn := parseUsize_toDigits n
  rw [h, parseUsize_toDigits, Option.some.injEq] at hn
  exact hn.symm

/-- What stands in front of the last dot, and what follows it. -/
theorem append_dot_inj {a b s t : Str} (h : a ++ '.' :: s = b ++ '.' :: t) (hs : '.' ∉ s) (ht : '.' ∉ t) :
    a = b ∧ s = t := by
  have hreverse := congrArg List.reverse h
  simp only [List.reverse_append, List.reverse_cons, List.append_assoc, List.singleton_append] at hreverse
  have hs' : '.' ∉ s.reverse := by simpa using hs
  have ht' : '.' ∉ t.reverse := by simpa using ht
  have hparts : s.reverse = t.reverse ∧ a.reverse = b.reverse := by
    rcases List.append_eq_append_iff.mp hreverse with ⟨u, hu, hrest⟩ | ⟨u, hu, hrest⟩
    · cases u with
      | nil => simp_all
      | cons c u =>
          rw [List.cons_append, List.cons.injEq] at hrest
          rw [hu, ← hrest.1] at ht'
          exact absurd (by simp) ht'
    · cases u with
      | nil => simp_all
      | cons c u =>
          rw [List.cons_append, List.cons.injEq] at hrest
          rw [hu, ← hrest.1] at hs'
          exact absurd (by simp) hs'
  exact ⟨List.reverse_injective hparts.2, List.reverse_injective hparts.1⟩

theorem tempName_eq (pid counter : Nat) (name : Str) : tempName pid counter name =
    (('.' :: name ++ ".tmp".toList) ++ '.' :: Nat.toDigits 10 pid) ++ '.' :: Nat.toDigits 10 counter := by
  simp [tempName]

/-- Temporary names of different processes, or of different calls of one, are different. -/
theorem tempName_inj {pid pid' counter counter' : Nat} {name name' : Str}
    (h : tempName pid counter name = tempName pid' counter' name') : pid = pid' ∧ counter = counter' ∧ name = name' := by
  rw [tempName_eq, tempName_eq] at h
  obtain ⟨hfront, hcounter⟩ := append_dot_inj h (dot_notMem_toDigits _) (dot_notMem_toDigits _)
  obtain ⟨hname, hpid⟩ := append_dot_inj hfront (dot_notMem_toDigits _) (dot_notMem_toDigits _)
  exact ⟨toDigits_injective hpid, toDigits_injective hcounter, List.cons_injective (List.append_cancel_right hname)⟩

theorem dot_notMem_hexEncode (bytes : List UInt8) : '.' ∉ hexEncode bytes := by
  have hdigit : ∀ n < 16, hexDigit n ≠ '.' := by decide
  intro h
  obtain ⟨b, -, hb⟩ := List.mem_flatMap.mp h
  have hb256 := b.toNat_lt
  simp only [List.mem_cons, List.not_mem_nil, or_false] at hb
  cases hb with
  | inl hhigh => exact hdigit _ (by omega) hhigh.symm
  | inr hlow => exact hdigit _ (by omega) hlow.symm

theorem tempName_ne_rest (pid counter : Nat) (name : Str) (id : ObjectId) : tempName pid counter name ≠ id.rest := by
  intro h
  have hmem : '.' ∈ id.rest := h ▸ List.mem_cons_self
  exact dot_notMem_hexEncode _ (List.mem_of_mem_drop hmem)

/-- The file of an object is known from its shard and its name. -/
theorem ObjectId.eq_of_file {id id' : ObjectId} (hshard : id.shard = id'.shard) (hrest : id.rest = id'.rest) : id = id' := by
  apply ObjectId.toText_injective
  unfold ObjectId.toText
  rw [← List.take_append_drop 2 (hexEncode id.digest), ← List.take_append_drop 2 (hexEncode id'.digest)]
  exact congrArg _ (congrArg₂ _ hshard hrest)

/-! ## Calls -/

/-- A call of write_object, by the process and with the counter that name its temporary file. -/
structure WriteCall where
  object : Object
  pid : Nat
  counter : Nat

namespace WriteCall

variable {ι ρ : Type}

section Defs

variable (sha256 : List UInt8 → ObjectId) (calls : ι → WriteCall)

/-- The id of the object a call writes. -/
def id (i : ι) : ObjectId := (calls i).object.id sha256

/-- Where each call writes, and what. `kept` are the shards that are there at the start. -/
def config (kept : Str → Bool) : Config Str Str UInt8 ι (Nat × Nat) where
  dir i := (id sha256 calls i).shard
  target i := (id sha256 calls i).rest
  temp i := tempName (calls i).pid (calls i).counter (id sha256 calls i).rest
  owner i := ((calls i).pid, (calls i).counter)
  goal i bytes := bytes = (calls i).object.serialize
  kept := kept
  skips := true

/-- The file of an object. -/
def objectAt (s : System Str Str UInt8 ι ρ) (id : ObjectId) : Option (List UInt8) := s.lookup id.shard id.rest

/-- What is in the file of an id is the object with the id, as it is written. -/
def IsObject (id : ObjectId) (bytes : List UInt8) : Prop := ∃ o : Object, bytes = o.serialize ∧ o.id sha256 = id

/-- A repository has the object files of a system. -/
def Shows (repo : Repository) (s : System Str Str UInt8 ι ρ) : Prop :=
  ∀ id : ObjectId, repo.objects[id.toText]? = objectAt s id

/-- What a step makes of the repository behind the files: the rename of a call writes its object, and
    a power loss may take objects, but none whose call has synced its directory. -/
inductive Changes [DecidableEq ι] [DecidableEq ρ] (kept : Str → Bool) (s s' : System Str Str UInt8 ι ρ)
    (repo : Repository) : Repository → Prop
  | stay (hacts : Acts (config sha256 calls kept) s s') : Changes kept s s' repo repo
  | write (i : ι) (file : Nat) (bytes : List UInt8) (hacts : Acts (config sha256 calls kept) s s')
      (hsynced : s.stage i = .synced file bytes) (hrenamed : s'.stage i = .renamed bytes) :
      Changes kept s s' repo (repo.writeObject sha256 (calls i).object).2
  | lose (repo' : Repository) (hloss : Loses (config sha256 calls kept) s s')
      (hlost : ∀ key : Str, repo'.objects[key]? = repo.objects[key]? ∨ repo'.objects[key]? = none)
      (hkept : ∀ i bytes, s'.stage i = .returned bytes true → (repo'.objects[(id sha256 calls i).toText]?).isSome) :
      Changes kept s s' repo repo'

end Defs

variable {sha256 : List UInt8 → ObjectId} {calls : ι → WriteCall} {kept : Str → Bool}

theorem config_lawful : (config sha256 calls kept).Lawful where
  temp_ne _ _ := tempName_ne_rest _ _ _ _
  owner_eq i j h := by
    obtain ⟨hpid, hcounter, -⟩ := tempName_inj h
    exact Prod.ext hpid hcounter

theorem rest_isPlain (id : ObjectId) : (config sha256 calls kept).IsPlain id.rest := fun _ => tempName_ne_rest _ _ _ _

/-! ## Whole objects -/

section

variable [DecidableEq ι] [DecidableEq ρ] {base : Str → Str → Option (List UInt8)} {start s s' : System Str Str UInt8 ι ρ}

/-- What a moment of a run shows: every object file is a whole object with the id it is named after,
    the objects of calls that have returned are there, and so is what readers have got. -/
structure Intact (sha256 : List UInt8 → ObjectId) (calls : ι → WriteCall) (s : System Str Str UInt8 ι ρ) : Prop where
  stored : ∀ id bytes, objectAt s id = some bytes → IsObject sha256 id bytes
  returned : ∀ i, (∃ bytes durable, s.stage i = .returned bytes durable) ∨ s.stage i = .found →
    (objectAt s (id sha256 calls i)).isSome
  read : ∀ r id full got, s.reader r = .done id.shard id.rest full got → got = full ∧ IsObject sha256 id got
  verified : ∀ repo : Repository, Shows repo s → ∀ id,
    repo.readObject sha256 id = .ok (.error (.objectNotFound id)) ∨
      ∃ o : Object, o.id sha256 = id ∧ repo.readObject sha256 id = .ok (.ok o)

omit [DecidableEq ι] in
theorem isObject_of_complete (hbase : ∀ id : ObjectId, ∀ bytes, base id.shard id.rest = some bytes → IsObject sha256 id bytes)
    {id : ObjectId} {bytes : List UInt8} (h : (config sha256 calls kept).Complete base id.shard id.rest bytes) :
    IsObject sha256 id bytes := by
  cases h with
  | inl hstart => exact hbase id bytes hstart
  | inr hcall =>
      obtain ⟨i, hshard, hrest, rfl⟩ := hcall
      exact ⟨_, rfl, ObjectId.eq_of_file hshard hrest⟩

/-- Whatever the order of the steps of any number of writers, and wherever they die, fail or lose
    the power, no object file is ever torn: what stands under an id, and what a reader that takes
    no lock gets, is an object with this id as a whole. -/
theorem writeObject_intact
    (hbase : ∀ id : ObjectId, ∀ bytes, base id.shard id.rest = some bytes → IsObject sha256 id bytes)
    (hstart : Fresh (config sha256 calls kept) base start)
    (hrun : ReflTransGen (Step (config sha256 calls kept)) start s) : Intact sha256 calls s := by
  have hinv := inv_of_reaches config_lawful hstart hrun
  have hstored : ∀ id bytes, objectAt s id = some bytes → IsObject sha256 id bytes := fun id bytes hbytes =>
    isObject_of_complete hbase (hinv.complete (rest_isPlain id) hbytes)
  refine ⟨hstored, fun i hi => hinv.present config_lawful hi, fun r id full got hr => ?_, fun repo hshows id => ?_⟩
  · have hreader := hinv.reader r
    rw [hr] at hreader
    obtain ⟨hcomplete, rfl⟩ := hreader
    exact ⟨rfl, isObject_of_complete hbase hcomplete⟩
  · cases hbytes : objectAt s id with
    | none =>
        refine .inl ?_
        unfold Repository.readObject
        rw [hshows id, hbytes]
    | some bytes =>
        obtain ⟨o, rfl, rfl⟩ := hstored id bytes hbytes
        exact .inr ⟨o, rfl, Repository.readObject_of_stored sha256 ((hshows _).trans hbytes)⟩

/-- A process alone, and a reader after it. -/
def helloCalls : Unit → WriteCall := fun _ => ⟨.blob [104, 101, 108, 108, 111], 7, 0⟩

def noShards (ι ρ : Type) : System Str Str UInt8 ι ρ := ⟨fun _ => none, fun _ => .outside, fun _ => .idle⟩

omit [DecidableEq ι] [DecidableEq ρ] in
theorem fresh_noShards (calls : ι → WriteCall) :
    Fresh (config sha256 calls fun _ => false) (fun _ _ => none) (noShards ι ρ) where
  stage _ := rfl
  reader _ := rfl
  kept _ := rfl
  lost _ _ := rfl
  older _ _ h := by cases h
  published _ _ h := by cases h
  injective _ _ h := by cases h
  below _ _ h := by cases h
  shows _ _ h := by cases h

/-- The process makes the shard and writes the object. -/
theorem exists_helloRun :
    ∃ s : System Str Str UInt8 Unit Unit,
      ReflTransGen (Step (config .ofSha256 helloCalls fun _ => false)) (noShards Unit Unit) s ∧
        s.stage () = .returned (helloCalls ()).object.serialize true := by
  let shard := (id .ofSha256 helloCalls ()).shard
  let s₁ : System Str Str UInt8 Unit Unit :=
    { noShards Unit Unit with folder := Function.update (noShards Unit Unit).folder shard (some .empty) }
  have hmkdir : Acts (config .ofSha256 helloCalls fun _ => false) (noShards Unit Unit) s₁ := .mkdir shard rfl
  have hshard : s₁.folder shard = some .empty :=
    Function.update_self shard (some (.empty : Folder Str UInt8 Unit)) (noShards Unit Unit).folder
  obtain ⟨s, hdone⟩ := exists_done (config .ofSha256 helloCalls fun _ => false) s₁ (i := ()) (f := .empty)
    hshard rfl rfl (fun j hj => absurd hj Bool.false_ne_true)
  have hrun := ReflTransGen.mono (fun _ _ h => Step.acts _ h) _ _ hdone.run
  exact ⟨s, .head (.acts _ hmkdir) hrun, hdone.stage⟩

theorem writeObject_intact_hello :
    ∃ s : System Str Str UInt8 Unit Unit, s.stage () = .returned (helloCalls ()).object.serialize true ∧
      Intact .ofSha256 helloCalls s := by
  obtain ⟨s, hrun, hstage⟩ := exists_helloRun
  exact ⟨s, hstage, writeObject_intact (fun _ _ h => by cases h) (fresh_noShards helloCalls) hrun⟩

/-! ## The repository behind the files -/

/-- Ids tell the objects of the calls apart from each other and from those that are there. -/
structure Distinct (sha256 : List UInt8 → ObjectId) (calls : ι → WriteCall) (base : Str → Str → Option (List UInt8)) :
    Prop where
  same : ∀ i j, id sha256 calls i = id sha256 calls j → (calls i).object = (calls j).object
  old : ∀ i bytes, base (id sha256 calls i).shard (id sha256 calls i).rest = some bytes →
    bytes = (calls i).object.serialize

omit [DecidableEq ι] in
/-- The file of an object holds the same bytes whoever has written it. -/
theorem Distinct.unique (h : Distinct sha256 calls base) {id : ObjectId} {bytes bytes' : List UInt8}
    (hbytes : (config sha256 calls kept).Complete base id.shard id.rest bytes)
    (hbytes' : (config sha256 calls kept).Complete base id.shard id.rest bytes') : bytes = bytes' := by
  have hcall : ∀ {b : List UInt8} {i : ι}, WriteCall.id sha256 calls i = id →
      (config sha256 calls kept).Complete base id.shard id.rest b → b = (calls i).object.serialize := by
    rintro b i rfl hb
    cases hb with
    | inl hstart => exact h.old i b hstart
    | inr hother =>
        obtain ⟨j, hshard, hrest, rfl⟩ := hother
        exact congrArg Object.serialize (h.same j i (ObjectId.eq_of_file hshard hrest))
  cases hbytes with
  | inr hwritten =>
      obtain ⟨i, hshard, hrest, rfl⟩ := hwritten
      exact (hcall (ObjectId.eq_of_file hshard hrest) hbytes').symm
  | inl hstart =>
      cases hbytes' with
      | inl hstart' => exact Option.some.inj (hstart.symm.trans hstart')
      | inr hwritten =>
          obtain ⟨i, hshard, hrest, rfl⟩ := hwritten
          exact hcall (ObjectId.eq_of_file hshard hrest) (.inl hstart)

/-- A step shows the repository that was there, or the one that a call of write_object leaves. -/
theorem Shows.acts (hdistinct : Distinct sha256 calls base) (hinv : Inv (config sha256 calls kept) base s)
    (hacts : Acts (config sha256 calls kept) s s') {repo : Repository} (h : Shows repo s) :
    ∃ repo', Changes sha256 calls kept s s' repo repo' ∧ Shows repo' s' := by
  cases hacts.lookup hinv config_lawful with
  | inl hsame => exact ⟨repo, .stay hacts, fun id => (h id).trans (hsame _ _ (rest_isPlain id)).symm⟩
  -- a rename is the one step that readers see, and it puts an object in place
  | inr hrename =>
      obtain ⟨i, file, bytes, hsynced, hrenamed, rfl, hlookup⟩ := hrename
      refine ⟨_, .write i file _ hacts hsynced hrenamed, fun id' => ?_⟩
      have hid : objectAt s' id' =
          if id' = id sha256 calls i then some (calls i).object.serialize else objectAt s id' := by
        rw [show objectAt s' id' = _ from hlookup _ _ (rest_isPlain id')]
        by_cases heq : id' = id sha256 calls i
        · rw [if_pos heq, heq]
          exact if_pos ⟨rfl, rfl⟩
        · rw [if_neg heq, if_neg fun hfile => heq (ObjectId.eq_of_file hfile.1 hfile.2)]
          rfl
      rw [hid]
      unfold Repository.writeObject
      dsimp only
      split
      · -- another call was faster, with the same bytes
        rename_i hthere
        split
        · rename_i heq
          rw [Std.ExtTreeMap.contains_eq_isSome_getElem?] at hthere
          obtain ⟨found, hfound⟩ := Option.isSome_iff_exists.mp ((congrArg Option.isSome (h _)).symm.trans hthere)
          rw [heq, h]
          refine hfound.trans (congrArg some ?_)
          exact hdistinct.unique (hinv.complete (rest_isPlain _) hfound) (.inr ⟨i, rfl, rfl, rfl⟩)
        · exact h id'
      · rw [BTreeMap.getElem?_insert]
        by_cases heq : id' = id sha256 calls i
        · rw [if_pos heq, if_pos (by rw [heq]; rfl)]
        · rw [if_neg heq, if_neg fun htext => heq (ObjectId.toText_injective htext.symm), h id']

/-- A power loss shows a repository that has lost objects. -/
theorem Shows.loses (hdistinct : Distinct sha256 calls base) (hinv : Inv (config sha256 calls kept) base s)
    (hloss : Loses (config sha256 calls kept) s s') {repo : Repository} (h : Shows repo s) :
    ∃ repo', Changes sha256 calls kept s s' repo repo' ∧ Shows repo' s' := by
  classical
  have hshows : Shows ⟨repo.objects.filter fun key _ =>
      decide (∀ id : ObjectId, id.toText = key → (objectAt s' id).isSome)⟩ s' := by
    intro id
    have honly : (∀ id' : ObjectId, id'.toText = id.toText → (objectAt s' id').isSome) ↔ (objectAt s' id).isSome :=
      ⟨fun hall => hall id rfl, fun hsome id' heq => ObjectId.toText_injective heq ▸ hsome⟩
    dsimp only
    rw [Std.ExtTreeMap.getElem?_filter', h id]
    simp only [honly]
    cases hleft : objectAt s' id with
    | none => simp
    | some bytes =>
        -- what is left of a file is what it was
        obtain ⟨bytes', hbytes'⟩ := Option.isSome_iff_exists.mp
          (hinv.isSome_of_loses hloss (rest_isPlain id) (Option.isSome_of_eq_some hleft))
        have heq := hdistinct.unique (hinv.complete (rest_isPlain id) hbytes')
          ((hinv.loses hloss).complete (rest_isPlain id) hleft)
        rw [show objectAt s id = some bytes' from hbytes', heq]
        simp
  refine ⟨_, .lose _ hloss (fun key => ?_) (fun i bytes hi => ?_), hshows⟩
  · rw [Std.ExtTreeMap.getElem?_filter']
    cases repo.objects[key]? with
    | none => exact .inr rfl
    | some bytes =>
        rw [Option.filter_some]
        split
        · exact .inl rfl
        · exact .inr rfl
  · rw [hshows]
    exact (hinv.loses hloss).present config_lawful (.inl ⟨bytes, true, hi⟩)

/-- A step changes the repository behind the files as it should. -/
theorem Shows.step (hdistinct : Distinct sha256 calls base) (hinv : Inv (config sha256 calls kept) base s)
    (hstep : Step (config sha256 calls kept) s s') {repo : Repository} (h : Shows repo s) :
    ∃ repo', Changes sha256 calls kept s s' repo repo' ∧ Shows repo' s' := by
  cases hstep with
  | acts hacts => exact h.acts hdistinct hinv hacts
  | powerLoss hloss => exact h.loses hdistinct hinv hloss

/-- Writing object files is writing objects: at any moment of any run the object files are those of
    a repository, which each rename of the run and each power loss in it changes, and nothing else. -/
theorem writeObject_refines (hdistinct : Distinct sha256 calls base) {run : Nat → System Str Str UInt8 ι ρ} {n : Nat}
    (hstart : Fresh (config sha256 calls kept) base (run 0)) {repo : Repository} (hrepo : Shows repo (run 0))
    (hrun : ∀ k < n, Step (config sha256 calls kept) (run k) (run (k + 1))) :
    ∃ repos : Nat → Repository, repos 0 = repo ∧ (∀ k ≤ n, Shows (repos k) (run k)) ∧
      ∀ k < n, Changes sha256 calls kept (run k) (run (k + 1)) (repos k) (repos (k + 1)) := by
  induction n with
  | zero =>
      refine ⟨fun _ => repo, rfl, fun k hk => ?_, fun k hk => absurd hk (Nat.not_lt_zero k)⟩
      rwa [Nat.le_zero.mp hk]
  | succ n ih =>
      -- the run so far has its repositories; the last step gives one more
      obtain ⟨repos, hfirst, hshows, hchanges⟩ := ih fun k hk => hrun k (Nat.lt_succ_of_lt hk)
      have hreaches : ∀ k ≤ n, ReflTransGen (Step (config sha256 calls kept)) (run 0) (run k) := by
        intro k hk
        induction k with
        | zero => exact .refl
        | succ k ih => exact (ih (Nat.le_of_succ_le hk)).tail (hrun k (by omega))
      have hinv := inv_of_reaches config_lawful hstart (hreaches n le_rfl)
      obtain ⟨last, hchange, hlast⟩ := (hshows n le_rfl).step hdistinct hinv (hrun n (Nat.lt_succ_self n))
      refine ⟨fun k => if k ≤ n then repos k else last, by simpa using hfirst, fun k hk => ?_, fun k hk => ?_⟩
      · dsimp only
        split
        · rename_i hle
          exact hshows k hle
        · rename_i hle
          obtain rfl : k = n + 1 := by omega
          exact hlast
      · dsimp only
        rw [if_pos (Nat.le_of_lt_succ hk)]
        split
        · rename_i hle
          exact hchanges k hle
        · rename_i hle
          obtain rfl : k = n := by omega
          exact hchange

/-- The steps of a run, one after the other. -/
theorem exists_run {σ : Type} {R : σ → σ → Prop} {first last : σ} (h : ReflTransGen R first last) :
    ∃ (run : Nat → σ) (n : Nat), run 0 = first ∧ run n = last ∧ ∀ k < n, R (run k) (run (k + 1)) := by
  induction h using ReflTransGen.head_induction_on with
  | refl => exact ⟨fun _ => last, 0, rfl, rfl, fun k hk => absurd hk (Nat.not_lt_zero k)⟩
  | @head s _ hstep _ ih =>
      obtain ⟨run, n, rfl, hlast, hrun⟩ := ih
      refine ⟨fun k => k.casesOn s run, n + 1, rfl, hlast, fun k hk => ?_⟩
      cases k with
      | zero => exact hstep
      | succ k => exact hrun k (by omega)

/-- The repository after the process has written its object. -/
theorem writeObject_refines_hello :
    ∃ (run : Nat → System Str Str UInt8 Unit Unit) (n : Nat) (repos : Nat → Repository),
      (run n).stage () = .returned (helloCalls ()).object.serialize true ∧ repos 0 = .init ∧ Shows (repos n) (run n) ∧
      ∀ k < n, Changes .ofSha256 helloCalls (fun _ => false) (run k) (run (k + 1)) (repos k) (repos (k + 1)) := by
  obtain ⟨s, hreaches, hstage⟩ := exists_helloRun
  obtain ⟨run, n, hfirst, rfl, hrun⟩ := exists_run hreaches
  have hdistinct : Distinct .ofSha256 helloCalls fun _ _ => none := ⟨fun _ _ _ => rfl, fun _ _ h => by cases h⟩
  have hempty : Shows .init (run 0) := fun id => by
    rw [hfirst]
    exact Std.ExtTreeMap.getElem?_empty
  obtain ⟨repos, hinit, hshows, hchanges⟩ :=
    writeObject_refines hdistinct (hfirst ▸ fresh_noShards helloCalls) hempty hrun
  exact ⟨run, n, repos, hstage, hinit, hshows n le_rfl, hchanges⟩

end

end WriteCall

end Omoplata
