-- SUMMARY: Pulling the closure of an object from a server, and what a pull that ends has in the store.
import Omoplata.Store.Closure

/-!
# Pulling a closure

A pull walks the objects below a root, asks the server for those that are missing, and
stores what it is given under the id of what it is given. The server may answer a
request with anything.
-/

open Walk

namespace Omoplata

/-- Why a pull fails. -/
inductive PullError where
  | transport (reason : Str)
  | status (id : ObjectId) (code : Nat)
  | object (id : ObjectId) (e : ObjectError)
  deriving DecidableEq

/-- What a server answers a request with: a status and a body, if it can be reached. -/
abbrev Response := Except Str (Nat × List UInt8)

/-- A server: what it answers the `n`-th request with, given the id that is asked for. -/
abbrev Server := Nat → ObjectId → Response

/-- The state of a pull, the top of its stack first. -/
structure Pull where
  stack : List ObjectId
  seen : List ObjectId
  repo : Repository
  written : Nat
  requests : Nat

/-- What a turn of the loop comes to. -/
inductive PullTurn where
  | done
  | next (s : Pull)
  | failed (e : PullError)
  | panicked (p : Panic)

/-- How a pull ends. -/
inductive PullEnd where
  | done (written : Nat)
  | failed (e : PullError)
  | panicked (p : Panic)
  | unfinished
  deriving DecidableEq

/-- One object's bytes, by id. -/
def fetchObject (serve : Server) (n : Nat) (id : ObjectId) : Except PullError (List UInt8) :=
  match serve n id with
  | .error reason => .error (.transport reason)
  | .ok (status, body) => if status ≠ 200 then .error (.status id status) else .ok body

section

variable (sha256 : List UInt8 → ObjectId) (serve : Server)

/-- A turn of the loop. -/
def Pull.step (s : Pull) : PullTurn :=
  match s.stack with
  | [] => .done
  | id :: stack =>
      if id ∈ s.seen then .next { s with stack := stack }
      else if s.repo.hasObject id then
        match s.repo.readObject sha256 id with
        | .error p => .panicked p
        | .ok (.error _) => .next { s with stack := stack, seen := id :: s.seen }
        | .ok (.ok object) => .next { s with stack := children object ++ stack, seen := id :: s.seen }
      else
        match fetchObject serve s.requests id with
        | .error e => .failed e
        | .ok bytes =>
            match Object.deserialize bytes with
            | .error p => .panicked p
            | .ok (.error e) => .failed (.object id e)
            | .ok (.ok object) =>
                .next ⟨children object ++ stack, id :: s.seen, (s.repo.writeObject sha256 object).2,
                  s.written + 1, s.requests + 1⟩

/-- The loop, for so many turns. -/
def Pull.run : Nat → Pull → PullEnd × Repository
  | 0, s => (.unfinished, s.repo)
  | fuel + 1, s =>
      match s.step sha256 serve with
      | .done => (.done s.written, s.repo)
      | .next s => Pull.run fuel s
      | .failed e => (.failed e, s.repo)
      | .panicked p => (.panicked p, s.repo)

/-- Pull the closure of an object into a repository. -/
def pullClosureHttp (fuel : Nat) (repo : Repository) (root : ObjectId) : PullEnd × Repository :=
  Pull.run sha256 serve fuel ⟨[root], [], repo, 0, 0⟩

/-! ## What a pull is for -/

/-- At this turn the pull gets what it asks for: an object that is there can be read, and one
    that is not is answered with an object of that id. -/
def Pull.Honest (s : Pull) : Prop :=
  ∀ id stack, s.stack = id :: stack → id ∉ s.seen →
    if s.repo.hasObject id then ∃ object, s.repo.readObject sha256 id = .ok (.ok object)
    else ∀ bytes object, fetchObject serve s.requests id = .ok bytes →
      Object.deserialize bytes = .ok (.ok object) → object.id sha256 = id

/-- Every turn of a pull is honest. -/
def Pull.HonestRun : Nat → Pull → Prop
  | 0, _ => True
  | fuel + 1, s =>
      s.Honest sha256 serve ∧ ∀ s', s.step sha256 serve = .next s' → Pull.HonestRun fuel s'

end

section

variable {sha256 : List UInt8 → ObjectId} {serve : Server}

/-- What a pull that gets what it asks for has done: it explores the closure in what it has
    stored, and all it has seen can be read. -/
structure Pull.Invariant (sha256 : List UInt8 → ObjectId) (root : ObjectId) (s : Pull) : Prop where
  explores : Explores (RefersTo sha256 s.repo) [root] {a | a ∈ s.seen} s.stack
  readable : ∀ a ∈ s.seen, ∃ object, s.repo.readObject sha256 a = .ok (.ok object)

theorem Pull.Invariant.init (repo : Repository) (root : ObjectId) :
    Pull.Invariant sha256 root ⟨[root], [], repo, 0, 0⟩ := by
  refine ⟨?_, by simp⟩
  simpa using (Explores.init (fun a => Iff.rfl) : Explores (RefersTo sha256 repo) [root] ∅ [root])

/-- A visit of an object that can be read keeps the invariant. -/
theorem Pull.Invariant.visit {root id : ObjectId} {s : Pull} {stack : List ObjectId} {object : Object}
    (h : Explores (RefersTo sha256 s.repo) [root] {a | a ∈ s.seen} (id :: stack))
    (hreadable : ∀ a ∈ s.seen, ∃ object, s.repo.readObject sha256 a = .ok (.ok object))
    (hread : s.repo.readObject sha256 id = .ok (.ok object)) (written requests : Nat) :
    Pull.Invariant sha256 root ⟨children object ++ stack, id :: s.seen, s.repo, written, requests⟩ := by
  refine ⟨?_, ?_⟩
  · have hvisit := h.visit (fun b => by rw [refersTo_iff hread, List.mem_append])
    have hseen : {a | a ∈ id :: s.seen} = insert id {a | a ∈ s.seen} := by
      ext a
      simp
    exact hseen ▸ hvisit
  · exact List.forall_mem_cons.mpr ⟨⟨object, hread⟩, hreadable⟩

/-- An honest turn keeps the invariant. -/
theorem Pull.Invariant.step {root : ObjectId} {s s' : Pull} (h : Pull.Invariant sha256 root s)
    (hhonest : s.Honest sha256 serve) (hstep : s.step sha256 serve = .next s') :
    Pull.Invariant sha256 root s' := by
  obtain ⟨stack, seen, repo, written, requests⟩ := s
  obtain ⟨hexplores, hreadable⟩ := h
  unfold Pull.step at hstep
  cases stack with
  | nil => simp at hstep
  | cons id stack =>
      simp only at hstep hexplores hreadable
      split at hstep
      · rename_i hseen
        cases hstep
        exact ⟨hexplores.skip hseen, hreadable⟩
      · rename_i hunseen
        have hgets := hhonest id stack rfl hunseen
        split at hstep
        -- an object that is there already is only walked
        · rename_i hthere
          rw [if_pos hthere] at hgets
          obtain ⟨object, hread⟩ := hgets
          simp only [hread, PullTurn.next.injEq] at hstep
          subst hstep
          exact Pull.Invariant.visit (s := ⟨id :: stack, seen, repo, written, requests⟩) hexplores hreadable
            hread _ _
        · rename_i hmissing
          rw [if_neg hmissing] at hgets
          split at hstep
          · simp at hstep
          · rename_i bytes hfetch
            split at hstep
            · simp at hstep
            · simp at hstep
            · rename_i object hdecode
              cases hstep
              -- a fetched object is the one asked for: it hashes to the id, or the server was not honest
              have hid := hgets bytes object hfetch hdecode
              have hread : (repo.writeObject sha256 object).2.readObject sha256 id = .ok (.ok object) := by
                rw [← hid]
                exact Repository.readObject_written (by rw [hid]; simpa using hmissing)
              have hkept : ∀ a ∈ seen, ∃ o, repo.readObject sha256 a = .ok (.ok o) ∧
                  (repo.writeObject sha256 object).2.readObject sha256 a = .ok (.ok o) := by
                intro a ha
                obtain ⟨o, ho⟩ := hreadable a ha
                exact ⟨o, ho, Repository.readObject_writeObject ho object⟩
              refine Pull.Invariant.visit (s := ⟨id :: stack, seen, (repo.writeObject sha256 object).2,
                written, requests⟩) (hexplores.grow ?_ ?_) (fun a ha => ?_) hread _ _
              · rintro a b ⟨o, ho, hb⟩
                exact ⟨o, Repository.readObject_writeObject ho object, hb⟩
              · intro a ha b hb
                obtain ⟨o, ho, ho'⟩ := hkept a ha
                exact (refersTo_iff ho b).mpr ((refersTo_iff ho' b).mp hb)
              · obtain ⟨o, -, ho'⟩ := hkept a ha
                exact ⟨o, ho'⟩

/-- A pull that ends, with every turn honest, has seen the closure of the root and can read it. -/
theorem Pull.Invariant.run {root : ObjectId} {fuel : Nat} {s : Pull} {written : Nat} {repo : Repository}
    (h : Pull.Invariant sha256 root s) (hhonest : s.HonestRun sha256 serve fuel)
    (hrun : Pull.run sha256 serve fuel s = (.done written, repo)) : ClosureIn sha256 repo root := by
  induction fuel generalizing s with
  | zero => simp [Pull.run] at hrun
  | succ fuel ih =>
      obtain ⟨hturn, hrest⟩ := hhonest
      unfold Pull.run at hrun
      cases hstep : s.step sha256 serve with
      | done =>
          simp only [hstep, Prod.mk.injEq] at hrun
          obtain ⟨-, rfl⟩ := hrun
          have hempty : s.stack = [] := by
            unfold Pull.step at hstep
            cases hstack : s.stack with
            | nil => rfl
            | cons id stack =>
                simp only [hstack] at hstep
                split at hstep
                · simp at hstep
                · split at hstep
                  · split at hstep <;> simp at hstep
                  · split at hstep
                    · simp at hstep
                    · split at hstep <;> simp at hstep
          intro id hid
          have hseen := (hempty ▸ h.explores).finish id |>.mpr hid
          exact h.readable id hseen
      | next s' =>
          simp only [hstep] at hrun
          exact ih (h.step hturn hstep) (hrest s' hstep) hrun
      | failed e => simp [hstep] at hrun
      | panicked p => simp [hstep] at hrun

/-- A pull that ends well and got what it asked for at every turn leaves the root and all
    below it in the store, under their own ids. -/
theorem pull_closure_of_honest {fuel written : Nat} {repo repo' : Repository} {root : ObjectId}
    (hhonest : Pull.HonestRun sha256 serve fuel ⟨[root], [], repo, 0, 0⟩)
    (h : pullClosureHttp sha256 serve fuel repo root = (.done written, repo')) :
    ClosureIn sha256 repo' root :=
  Pull.Invariant.run (.init repo root) hhonest h

end

/-- A server that answers with the object of the id it is asked for, if it has it. -/
def serveObjects (sha256 : List UInt8 → ObjectId) (objects : List Object) : Server := fun _ id =>
  match objects.find? fun object => object.id sha256 = id with
  | some object => .ok (200, object.serialize)
  | none => .ok (404, [])

/-- Every turn of a pull from such a server is honest, where what is stored can be read. -/
theorem Pull.honestRun_serveObjects {sha256 : List UInt8 → ObjectId} {objects : List Object} {fuel : Nat} {s : Pull}
    (hrepo : ∀ id, s.repo.hasObject id = true → ∃ object, s.repo.readObject sha256 id = .ok (.ok object)) :
    s.HonestRun sha256 (serveObjects sha256 objects) fuel := by
  -- what is served under an id is the object that hashes to it
  have hserve : ∀ {n id bytes object}, fetchObject (serveObjects sha256 objects) n id = .ok bytes →
      Object.deserialize bytes = .ok (.ok object) → object.id sha256 = id := by
    intro n id bytes object hfetch hdecode
    unfold fetchObject serveObjects at hfetch
    cases hfind : objects.find? fun object => object.id sha256 = id with
    | none => simp [hfind] at hfetch
    | some found =>
        simp only [hfind, ne_eq, not_true_eq_false, if_false, Except.ok.injEq] at hfetch
        rw [← hfetch, Object.deserialize_serialize, Except.ok.injEq, Except.ok.injEq] at hdecode
        rw [← hdecode]
        simpa using List.find?_some hfind
  induction fuel generalizing s with
  | zero => trivial
  | succ fuel ih =>
      refine ⟨fun id stack _ _ => ?_, fun s' hstep => ih fun id hid => ?_⟩
      · split
        · rename_i hthere
          exact hrepo id hthere
        · exact fun bytes object => hserve
      · -- what is stored is what was there and perhaps one object more
        have hgrown : s'.repo = s.repo ∨ ∃ object, s'.repo = (s.repo.writeObject sha256 object).2 := by
          unfold Pull.step at hstep
          split at hstep
          · cases hstep
          · split at hstep
            · cases hstep
              exact .inl rfl
            · split at hstep
              · split at hstep
                · cases hstep
                · cases hstep
                  exact .inl rfl
                · cases hstep
                  exact .inl rfl
              · split at hstep
                · cases hstep
                · split at hstep
                  · cases hstep
                  · cases hstep
                  · rename_i object _
                    cases hstep
                    exact .inr ⟨object, rfl⟩
        rcases hgrown with hsame | ⟨object, hwritten⟩
        · rw [hsame] at hid ⊢
          exact hrepo id hid
        · rw [hwritten] at hid ⊢
          by_cases hhad : s.repo.hasObject id = true
          · obtain ⟨o, ho⟩ := hrepo id hhad
            exact ⟨o, Repository.readObject_writeObject ho object⟩
          -- the object read last is the one that was written, or it was there
          · by_cases hnew : s.repo.hasObject (object.id sha256) = false
            · have hthis := mt (Repository.hasObject_written rfl hnew id).mpr (by simp [hid])
              obtain rfl : id = object.id sha256 := not_not.mp fun hne => hthis ⟨hne, by simpa using hhad⟩
              exact ⟨object, Repository.readObject_written hnew⟩
            · have hsame : (s.repo.writeObject sha256 object).2 = s.repo := by
                unfold Repository.writeObject
                unfold Repository.hasObject at hnew
                rw [Bool.not_eq_false] at hnew
                simp only [hnew, if_true]
              rw [hsame] at hid
              exact absurd hid hhad

/-- A directory with one file is pulled from a server that has both. -/
theorem pull_closure_of_honest_tree :
    let file : Object := .blob [1]
    let tree : Object := .tree (.build [⟨"f".toList, .blob, file.id ObjectId.ofSha256⟩])
    let serve := serveObjects ObjectId.ofSha256 [file, tree]
    ClosureIn ObjectId.ofSha256 (pullClosureHttp ObjectId.ofSha256 serve 3 .init (tree.id ObjectId.ofSha256)).2
      (tree.id ObjectId.ofSha256) := by
  intro file tree serve
  have hhonest : Pull.HonestRun ObjectId.ofSha256 serve 3 ⟨[tree.id ObjectId.ofSha256], [], .init, 0, 0⟩ :=
    Pull.honestRun_serveObjects fun id hid => absurd hid (by simp [Repository.hasObject_init])
  have hdone : (pullClosureHttp ObjectId.ofSha256 serve 3 .init (tree.id ObjectId.ofSha256)).1 = .done 2 := by
    decide +kernel
  cases hrun : pullClosureHttp ObjectId.ofSha256 serve 3 .init (tree.id ObjectId.ofSha256) with
  | mk r repo =>
      rw [hrun] at hdone
      obtain rfl : r = .done 2 := hdone
      exact pull_closure_of_honest hhonest hrun

/-- A server that answers with another file: the pull goes well, and the root is not there. -/
theorem pull_closure_missing :
    let serve : Server := fun _ _ => .ok (200, (Object.blob [2]).serialize)
    let root := Object.id ObjectId.ofSha256 (.blob [1])
    let r := pullClosureHttp ObjectId.ofSha256 serve 2 .init root
    r.1 = .done 1 ∧ r.2.readObject ObjectId.ofSha256 root = .ok (.error (.objectNotFound root)) := by
  decide +kernel

end Omoplata
