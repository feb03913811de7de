-- SUMMARY: What the objects of an import are stored as, and when the kinds of its tree entries are right.
import Omoplata.Git.Import
import Omoplata.Store.Closure
import Omoplata.Work.RoundTrip

/-!
# The kinds of imported entries

An import takes the kind of an entry from its mode, and stores the object that the entry names
by the type of the object. Nothing compares the two, so a tree whose modes do not fit its
objects is imported with entries of the wrong kind, and cannot be checked out.
-/

open Codec Relation Walk

namespace Omoplata

/-! ## What objects are stored as -/

/-- An entry of a stored tree for an entry of a tree, given what the objects are stored as. -/
structure EntryImage (sha256 : List UInt8 → ObjectId) (image : GitOid → Object) (g : GitTreeEntry) (e : TreeEntry) :
    Prop where
  valid : ValidName g.name
  name : e.name = g.name
  kind : modeToKind g.mode = .ok e.kind
  id : e.id = (image g.oid).id sha256

/-- What an object is stored as: a tree with the entries under the ids of what they are stored as. -/
inductive Translates (sha256 : List UInt8 → ObjectId) (objects : GitObjects) : GitOid → Object → Prop
  | blob {a : GitOid} {bytes : List UInt8} (h : objects[a]? = some (.blob bytes)) :
      Translates sha256 objects a (.blob bytes)
  | tree {a : GitOid} {entries : List GitTreeEntry} {inserts : List TreeEntry} (image : GitOid → Object)
      (h : objects[a]? = some (.tree entries)) (below : ∀ g ∈ entries, Translates sha256 objects g.oid (image g.oid))
      (hinserts : List.Forall₂ (EntryImage sha256 image) entries inserts) :
      Translates sha256 objects a (.tree (.build inserts))

section

variable {sha256 : List UInt8 → ObjectId} {objects : GitObjects}

theorem EntryImage.unique {image image' : GitOid → Object} {g : GitTreeEntry} {e e' : TreeEntry}
    (h : EntryImage sha256 image g e) (h' : EntryImage sha256 image' g e') (hsame : image g.oid = image' g.oid) :
    e = e' := by
  have hkind : e.kind = e'.kind := Except.ok.inj (h.kind.symm.trans h'.kind)
  have hid : e.id = e'.id := by rw [h.id, h'.id, hsame]
  have hname : e.name = e'.name := h.name.trans h'.name.symm
  cases e
  cases e'
  cases hname
  cases hkind
  cases hid
  rfl

/-- An object is stored as one object only. -/
theorem Translates.unique {a : GitOid} {o o' : Object} (h : Translates sha256 objects a o)
    (h' : Translates sha256 objects a o') : o = o' := by
  induction h generalizing o' with
  | blob h =>
      cases h' with
      | blob h' =>
          rw [h] at h'
          cases h'
          rfl
      | tree image' h' _ _ =>
          rw [h] at h'
          cases h'
  | tree image h _ hinserts ih =>
      cases h' with
      | blob h' =>
          rw [h] at h'
          cases h'
      | tree image' h' below' hinserts' =>
          rw [h] at h'
          cases h'
          rw [forall₂_unique hinserts hinserts' fun g hg e e' he he' => he.unique he' (ih g hg (below' g hg))]

theorem Translates.isContent {a : GitOid} {o : Object} (h : Translates sha256 objects a o) :
    ∃ object, objects[a]? = some object ∧ object.isContent := by
  cases h with
  | blob h => exact ⟨_, h, rfl⟩
  | tree image h _ _ => exact ⟨_, h, rfl⟩

end

/-! ## What an import keeps -/

/-- The hash tells apart what the objects are stored as, and what a repository has under one of
    these ids is that object. -/
structure IdsApart (sha256 : List UInt8 → ObjectId) (objects : GitObjects) (repo : Repository) : Prop where
  apart : ∀ a a' o o', Translates sha256 objects a o → Translates sha256 objects a' o' →
    o.id sha256 = o'.id sha256 → o = o'
  intact : ∀ a o, Translates sha256 objects a o → repo.hasObject (o.id sha256) = true →
    repo.readObject sha256 (o.id sha256) = .ok (.ok o)

/-- What has been stored is what the objects are stored as, under their ids, and can be read. -/
structure Imported.Translated (sha256 : List UInt8 → ObjectId) (objects : GitObjects) (roots : List GitOid)
    (before : Repository) (s : Imported) : Prop where
  image : ∀ (a : GitOid) id, s.oidMap[a]? = some id →
    ∃ o, Translates sha256 objects a o ∧ o.id sha256 = id ∧ s.repo.readObject sha256 id = .ok (.ok o)
  apart : IdsApart sha256 objects s.repo
  reached : ∀ a ∈ s.oidMap, Leads (Refers objects) roots a
  wrote : ∀ (key : Str) bytes, s.repo.objects[key]? = some bytes →
    before.objects[key]? = some bytes ∨ ∃ (a : GitOid) (id : ObjectId), s.oidMap[a]? = some id ∧ key = id.toText

/-- What an import has stored of all content that some roots lead to. -/
def Stores (sha256 : List UInt8 → ObjectId) (objects : GitObjects) (roots : List GitOid)
    (oidMap : BTreeMap GitOid ObjectId) (after : Repository) : Prop :=
  ∀ (a : GitOid) o, Translates sha256 objects a o → Leads (Refers objects) roots a →
    oidMap[a]? = some (o.id sha256) ∧ after.readObject sha256 (o.id sha256) = .ok (.ok o)

section

variable {sha256 : List UInt8 → ObjectId} {objects : GitObjects} {roots : List GitOid} {before : Repository}

/-- An object is read back once it has been written, whether it was there or not. -/
theorem IdsApart.readObject {repo : Repository} {a : GitOid} {o : Object} (h : IdsApart sha256 objects repo)
    (ho : Translates sha256 objects a o) :
    (repo.writeObject sha256 o).2.readObject sha256 (o.id sha256) = .ok (.ok o) := by
  cases hhas : repo.hasObject (o.id sha256) with
  | true => exact Repository.readObject_writeObject (h.intact a o ho hhas) o
  | false => exact Repository.readObject_written hhas

theorem IdsApart.writeObject {repo : Repository} {a : GitOid} {o : Object} (h : IdsApart sha256 objects repo)
    (ho : Translates sha256 objects a o) : IdsApart sha256 objects (repo.writeObject sha256 o).2 := by
  refine ⟨h.apart, fun b p hp hthere => ?_⟩
  cases hhas : repo.hasObject (p.id sha256) with
  | true => exact Repository.readObject_writeObject (h.intact b p hp hhas) o
  | false =>
      by_cases hsame : p.id sha256 = o.id sha256
      · rw [h.apart b a p o hp ho hsame]
        exact h.readObject ho
      -- Writing one object makes no other one appear.
      · exfalso
        cases hown : repo.hasObject (o.id sha256) with
        | true =>
            have hrepo : (repo.writeObject sha256 o).2 = repo := by
              unfold Repository.hasObject at hown
              unfold Repository.writeObject
              simp only [hown, if_true]
            rw [hrepo, hhas] at hthere
            cases hthere
        | false =>
            rw [(Repository.hasObject_written rfl hown _).mpr ⟨hsame, hhas⟩] at hthere
            cases hthere

theorem Imported.Translated.store {s : Imported} {a : GitOid} {o : Object} (h : s.Translated sha256 objects roots before)
    (ho : Translates sha256 objects a o) (hleads : Leads (Refers objects) roots a) :
    (s.store sha256 a o).2.Translated sha256 objects roots before := by
  have hmap : ∀ b : GitOid, (s.store sha256 a o).2.oidMap[b]? = if a = b then some (o.id sha256) else s.oidMap[b]? :=
    fun b => BTreeMap.getElem?_insert s.oidMap a b (o.id sha256)
  refine ⟨fun b id hb => ?_, h.apart.writeObject ho, fun b hb => ?_, fun key bytes hkey => ?_⟩
  · rw [hmap] at hb
    split at hb
    · rename_i heq
      cases hb
      exact ⟨o, heq ▸ ho, rfl, h.apart.readObject ho⟩
    · obtain ⟨p, hp, hid, hread⟩ := h.image b id hb
      exact ⟨p, hp, hid, Repository.readObject_writeObject hread o⟩
  · rw [Std.ExtTreeMap.mem_iff_isSome_getElem?, hmap] at hb
    split at hb
    · rename_i heq
      exact heq ▸ hleads
    · exact h.reached b (Std.ExtTreeMap.mem_iff_isSome_getElem?.mpr hb)
  · have hself : (s.store sha256 a o).2.oidMap[a]? = some (o.id sha256) := by
      rw [hmap, if_pos rfl]
    -- What a key is known by may be imported again, but then it is stored as the same object.
    have hkept : ∀ (b : GitOid) id, s.oidMap[b]? = some id →
        ∃ c : GitOid, (s.store sha256 a o).2.oidMap[c]? = some id := by
      intro b id hb
      by_cases heq : a = b
      · subst heq
        obtain ⟨p, hp, rfl, -⟩ := h.image a id hb
        exact ⟨a, by rw [hself, hp.unique ho]⟩
      · exact ⟨b, by rw [hmap, if_neg heq, hb]⟩
    have hold : s.repo.objects[key]? = some bytes →
        before.objects[key]? = some bytes ∨ ∃ (b : GitOid) (id : ObjectId),
          (s.store sha256 a o).2.oidMap[b]? = some id ∧ key = id.toText := by
      intro hkey
      rcases h.wrote key bytes hkey with hbefore | ⟨b, id, hb, rfl⟩
      · exact .inl hbefore
      · obtain ⟨c, hc⟩ := hkept b id hb
        exact .inr ⟨c, id, hc, rfl⟩
    have hkey : (s.repo.writeObject sha256 o).2.objects[key]? = some bytes := hkey
    cases hhas : s.repo.hasObject (o.id sha256) with
    | true =>
        unfold Repository.hasObject at hhas
        unfold Repository.writeObject at hkey
        simp only [hhas, if_true] at hkey
        exact hold hkey
    | false =>
        rw [Repository.objects_written rfl hhas] at hkey
        split at hkey
        · rename_i heq
          exact .inr ⟨a, _, hself, heq.symm⟩
        · exact hold hkey

theorem Imported.mem_store {s : Imported} {a b : GitOid} {o : Object} :
    b ∈ (s.store sha256 a o).2.oidMap ↔ a = b ∨ b ∈ s.oidMap := by
  change b ∈ s.oidMap.insert a _ ↔ _
  rw [Std.ExtTreeMap.mem_insert, Std.compare_eq_iff_eq]

/-- What importing an object below a tree does. -/
def ImportsTo (sha256 : List UInt8 → ObjectId) (objects : GitObjects) (roots : List GitOid) (before : Repository)
    (a : GitOid) (s : Imported) (r : ObjectId × Imported) : Prop :=
  r.2.Translated sha256 objects roots before ∧ (∀ b ∈ s.oidMap, b ∈ r.2.oidMap) ∧
    ∃ o, Translates sha256 objects a o ∧ r.1 = o.id sha256

theorem importEntries_translated {sub : GitOid → GitObject → Imported → Except ImportStop (ObjectId × Imported)}
    {entries : List GitTreeEntry} {tree tree' : Tree} {s s' : Imported}
    (hsub : ∀ g ∈ entries, ∀ child s r, objects[g.oid]? = some child → s.Translated sha256 objects roots before →
      sub g.oid child s = .ok r → ImportsTo sha256 objects roots before g.oid s r)
    (hs : s.Translated sha256 objects roots before) (h : importEntries objects sub entries tree s = .ok (tree', s')) :
    s'.Translated sha256 objects roots before ∧ (∀ b ∈ s.oidMap, b ∈ s'.oidMap) ∧
      (∀ g ∈ entries, ∃ o, Translates sha256 objects g.oid o) ∧
      ∀ image : GitOid → Object, (∀ g ∈ entries, Translates sha256 objects g.oid (image g.oid)) →
        ∃ inserts, List.Forall₂ (EntryImage sha256 image) entries inserts ∧
          tree' = inserts.foldl (fun t e => (t.insert e.name e.kind e.id).toOption.getD t) tree := by
  induction entries generalizing tree s with
  | nil =>
      cases h
      exact ⟨hs, fun _ => id, List.forall_mem_nil _, fun _ _ => ⟨[], .nil, rfl⟩⟩
  | cons g entries ih =>
      obtain ⟨hhead, htail⟩ := List.forall_mem_cons.mp hsub
      simp only [importEntries, bind_eq_ok, mapError_eq_ok] at h
      obtain ⟨kind, hkind, child, hchild, ⟨id, s₁⟩, hone, tree₁, hinsert, hrest⟩ := h
      obtain ⟨hs₁, hkept₁, o, ho, rfl⟩ := hhead child s (id, s₁) (resolveObject_eq_ok.mp hchild) hs hone
      obtain ⟨hs', hkept, hall, hbuild⟩ := ih htail hs₁ hrest
      refine ⟨hs', fun b hb => hkept b (hkept₁ b hb), List.forall_mem_cons.mpr ⟨⟨o, ho⟩, hall⟩, fun image himage => ?_⟩
      obtain ⟨hself, hothers⟩ := List.forall_mem_cons.mp himage
      obtain ⟨inserts, hinserts, rfl⟩ := hbuild image hothers
      have hvalid : ValidName g.name := by
        by_contra hinvalid
        rw [Tree.insert, dif_neg hinvalid] at hinsert
        cases hinsert
      refine ⟨⟨g.name, kind, o.id sha256⟩ :: inserts, .cons ⟨hvalid, rfl, hkind, by rw [ho.unique hself]⟩ hinserts, ?_⟩
      rw [List.foldl_cons, hinsert]
      rfl

/-- A tree is imported as what it is stored as, with all below it. -/
theorem importTreeObject_translated {depth : Nat} {a : GitOid} {object : GitObject} {s : Imported}
    {r : ObjectId × Imported} (hleads : Leads (Refers objects) roots a) (hobject : objects[a]? = some object)
    (hs : s.Translated sha256 objects roots before) (h : importTreeObject sha256 objects depth a object s = .ok r) :
    ImportsTo sha256 objects roots before a s r ∧ a ∈ r.2.oidMap := by
  induction depth generalizing a object s r with
  | zero => cases h
  | succ depth ih =>
      unfold importTreeObject at h
      split at h
      · rename_i id hid
        cases h
        obtain ⟨o, ho, hoid, -⟩ := hs.image a id hid
        exact ⟨⟨hs, fun _ hb => hb, o, ho, hoid.symm⟩, Std.ExtTreeMap.mem_iff_isSome_getElem?.mpr (by rw [hid]; rfl)⟩
      · cases object with
        | blob bytes =>
            cases h
            have ho : Translates sha256 objects a (.blob bytes) := .blob hobject
            exact ⟨⟨hs.store ho hleads, fun b hb => Imported.mem_store.mpr (.inr hb), _, ho, rfl⟩,
              Imported.mem_store.mpr (.inl rfl)⟩
        | tree entries =>
            obtain ⟨⟨tree, s'⟩, hentries, h⟩ := bind_eq_ok.mp h
            cases h
            have hsub : ∀ g ∈ entries, ∀ child s r, objects[g.oid]? = some child →
                s.Translated sha256 objects roots before → importTreeObject sha256 objects depth g.oid child s = .ok r →
                  ImportsTo sha256 objects roots before g.oid s r := by
              intro g hg child s r hchild hs hr
              exact (ih (hleads.tail ⟨_, hobject, List.mem_map_of_mem hg⟩) hchild hs hr).1
            obtain ⟨hs', hkept, hall, hbuild⟩ := importEntries_translated hsub hs hentries
            -- One choice serves all entries, also those that share an object.
            have hchoice : ∀ b : GitOid, ∃ o, (∃ o, Translates sha256 objects b o) → Translates sha256 objects b o := by
              intro b
              by_cases hb : ∃ o, Translates sha256 objects b o
              · obtain ⟨o, ho⟩ := hb
                exact ⟨o, fun _ => ho⟩
              · exact ⟨.blob [], fun hsome => absurd hsome hb⟩
            choose image himage using hchoice
            have hbelow : ∀ g ∈ entries, Translates sha256 objects g.oid (image g.oid) := fun g hg =>
              himage g.oid (hall g hg)
            obtain ⟨inserts, hinserts, rfl⟩ := hbuild image hbelow
            have ho : Translates sha256 objects a (.tree (.build inserts)) := .tree image hobject hbelow hinserts
            exact ⟨⟨hs'.store ho hleads, fun b hb => Imported.mem_store.mpr (.inr (hkept b hb)), _, ho, rfl⟩,
              Imported.mem_store.mpr (.inl rfl)⟩
        | commit c => cases h
        | tag t => cases h

/-! ### The walk -/

/-- What the walk has stored is what the objects are stored as, and it has stored all content it has seen. -/
structure ImportWalk.Images (sha256 : List UInt8 → ObjectId) (objects : GitObjects) (roots : List GitOid)
    (before : Repository) (w : ImportWalk) : Prop where
  state : Imported.Translated sha256 objects roots before ⟨w.made.oidMap, w.repo⟩
  stored : ∀ (a : GitOid) o, w.made.gitObjects[a]? = some o → o.isContent → a ∈ w.made.oidMap

theorem ImportWalk.accept_images {depth : Nat} {w w' : ImportWalk} {a : GitOid} {object : GitObject}
    (hleads : Leads (Refers objects) roots a) (hobject : objects[a]? = some object)
    (hw : Imported.Translated sha256 objects roots before ⟨w.made.oidMap, w.repo⟩)
    (h : w.accept sha256 objects depth a object = .ok w') :
    Imported.Translated sha256 objects roots before ⟨w'.made.oidMap, w'.repo⟩ ∧
      (∀ b ∈ w.made.oidMap, b ∈ w'.made.oidMap) ∧ (object.isContent → a ∈ w'.made.oidMap) := by
  cases object with
  | commit c =>
      cases h
      exact ⟨hw, fun _ => id, fun hcontent => by cases hcontent⟩
  | tag t =>
      cases h
      exact ⟨hw, fun _ => id, fun hcontent => by cases hcontent⟩
  | blob bytes =>
      cases h
      exact ⟨hw.store (.blob hobject) hleads, fun b hb => Imported.mem_store.mpr (.inr hb),
        fun _ => Imported.mem_store.mpr (.inl rfl)⟩
  | tree entries =>
      obtain ⟨r, hr, h⟩ := bind_eq_ok.mp h
      cases h
      obtain ⟨⟨hstate, hkept, -⟩, hself⟩ := importTreeObject_translated hleads hobject hw hr
      exact ⟨hstate, hkept, fun _ => hself⟩

variable {sha1 : List UInt8 → GitOid} {refs : List (Str × GitOid)}

theorem ImportWalk.Images.step {depth : Nat} {w w' : ImportWalk} (h : w.Images sha256 objects roots before)
    (hsound : w.Sound sha1 objects roots refs) (hstep : w.step sha1 sha256 objects depth = .ok (some w')) :
    w'.Images sha256 objects roots before := by
  obtain ⟨pending, made, repo⟩ := w
  cases pending with
  | nil => cases hstep
  | cons a stack =>
      unfold ImportWalk.step at hstep
      simp only at hstep
      split at hstep
      · cases hstep
        exact ⟨h.state, h.stored⟩
      · obtain ⟨object, hobject, hstep⟩ := bind_eq_ok.mp hstep
        obtain ⟨_, -, hstep⟩ := bind_eq_ok.mp hstep
        obtain ⟨w₁, haccept, hstep⟩ := bind_eq_ok.mp hstep
        cases hstep
        have hfound := resolveObject_eq_ok.mp (mapError_eq_ok.mp hobject)
        have hleads := hsound.explores.reached a (.inr List.mem_cons_self)
        obtain ⟨hstate, hkept, hself⟩ := accept_images hleads hfound h.state haccept
        refine ⟨hstate, fun b o hb hcontent => ?_⟩
        have hb : (w₁.made.gitObjects.insert a object)[b]? = some o := hb
        rw [BTreeMap.getElem?_insert, (accept_eq_ok haccept).1] at hb
        split at hb
        · rename_i heq
          cases hb
          exact heq ▸ hself hcontent
        · exact hkept b (h.stored b o hb hcontent)

theorem ImportWalk.Images.run {depth turns : Nat} {w : ImportWalk} {r : GitImport × Repository}
    (h : w.Images sha256 objects roots before) (hsound : w.Sound sha1 objects roots refs)
    (hrun : w.run sha1 sha256 objects depth turns = .ok r) :
    ImportWalk.Images sha256 objects roots before ⟨[], r.1, r.2⟩ := by
  induction turns generalizing w with
  | zero => cases hrun
  | succ turns ih =>
      obtain ⟨next, hstep, hrun⟩ := bind_eq_ok.mp hrun
      cases next with
      | some w' => exact ih (h.step hsound hstep) (hsound.step hstep) hrun
      | none =>
          cases hrun
          exact ⟨h.state, h.stored⟩

/-- An import that goes well has stored all content that its refs lead to, and can read it. -/
theorem importObjects_images {depth turns : Nat} {r : GitImport × Repository} (hapart : IdsApart sha256 objects before)
    (h : importObjects sha1 sha256 objects depth turns refs before = .ok r) :
    Imported.Translated sha256 objects (refs.map Prod.snd) before ⟨r.1.oidMap, r.2⟩ ∧
      (∀ (a : GitOid) object, Leads (Refers objects) (refs.map Prod.snd) a → objects[a]? = some object →
        object.isContent → ∃ o, Translates sha256 objects a o) ∧
      Stores sha256 objects (refs.map Prod.snd) r.1.oidMap r.2 := by
  have hinit : ImportWalk.Images sha256 objects (refs.map Prod.snd) before
      ⟨(refs.map Prod.snd).reverse, ⟨∅, ∅, ∅, refs, 0, 0, 0, 0⟩, before⟩ := by
    refine ⟨⟨fun a id ha => ?_, hapart, fun a ha => ?_, fun key bytes hkey => .inl hkey⟩, fun a o ha => ?_⟩
    · rw [Std.ExtTreeMap.getElem?_empty] at ha
      cases ha
    · exact absurd ha Std.ExtTreeMap.not_mem_empty
    · rw [Std.ExtTreeMap.getElem?_empty] at ha
      cases ha
  have himages := hinit.run (ImportWalk.Sound.init sha1 objects refs before) h
  obtain ⟨-, hobjects, -, -⟩ := importObjects_eq_ok h
  have hstored : ∀ (a : GitOid) object, Leads (Refers objects) (refs.map Prod.snd) a → objects[a]? = some object →
      object.isContent → ∃ id, r.1.oidMap[a]? = some id := by
    intro a object hleads hobject hcontent
    have hmem := himages.stored a object ((hobjects a object).mpr ⟨hleads, hobject⟩) hcontent
    exact Option.isSome_iff_exists.mp (Std.ExtTreeMap.mem_iff_isSome_getElem?.mp hmem)
  refine ⟨himages.state, fun a object hleads hobject hcontent => ?_, fun a o ho hleads => ?_⟩
  · obtain ⟨id, hid⟩ := hstored a object hleads hobject hcontent
    exact (himages.state.image a id hid).imp fun o ho => ho.1
  · obtain ⟨object, hobject, hcontent⟩ := ho.isContent
    obtain ⟨id, hid⟩ := hstored a object hleads hobject hcontent
    obtain ⟨p, hp, rfl, hread⟩ := himages.state.image a id hid
    rw [ho.unique hp]
    exact ⟨hid, hread⟩

/-! ## The kinds of the entries -/

/-- The kind of entry that an object can have. -/
def GitObject.entryKind : GitObject → Option EntryKind
  | .blob _ => some .blob
  | .tree _ => some .tree
  | .commit _ => none
  | .tag _ => none

/-- In the trees that some roots lead to, the last entry of each name has a mode for the type of its object. -/
def ModesFit (objects : GitObjects) (roots : List GitOid) : Prop :=
  ∀ (a : GitOid) entries front g back, Leads (Refers objects) roots a → objects[a]? = some (.tree entries) →
    entries = front ++ g :: back → (∀ b ∈ back, b.name ≠ g.name) →
      ∀ o kind, objects[g.oid]? = some o → modeToKind g.mode = .ok kind → o.entryKind = some kind

/-- An import into a repository has left well-kinded trees: what it wrote is under the ids it gives,
    each entry has the kind of the object under its id, which is what the object of an entry of that
    name is stored as, and every tree can be checked out where nothing is in its way. -/
structure WellKinded (sha256 : List UInt8 → ObjectId) (objects : GitObjects) (before : Repository)
    (made : GitImport) (after : Repository) : Prop where
  wrote : ∀ (key : Str) bytes, after.objects[key]? = some bytes →
    before.objects[key]? = some bytes ∨ ∃ (a : GitOid) (id : ObjectId), made.oidMap[a]? = some id ∧ key = id.toText
  content : ∀ (a : GitOid) id, made.oidMap[a]? = some id →
    (∃ bytes, objects[a]? = some (.blob bytes) ∧ after.readObject sha256 id = .ok (.ok (.blob bytes))) ∨
      ∃ entries t, objects[a]? = some (.tree entries) ∧ after.readObject sha256 id = .ok (.ok (.tree t))
  kinds : ∀ (a : GitOid) id t, made.oidMap[a]? = some id → after.readObject sha256 id = .ok (.ok (.tree t)) →
    ∀ e ∈ t.entries, (e.kind = .blob ↔ ∃ bytes, after.readObject sha256 e.id = .ok (.ok (.blob bytes))) ∧
      (e.kind = .tree ↔ ∃ t', after.readObject sha256 e.id = .ok (.ok (.tree t')))
  images : ∀ (a : GitOid) id t entries, made.oidMap[a]? = some id → after.readObject sha256 id = .ok (.ok (.tree t)) →
    objects[a]? = some (.tree entries) → ∀ e ∈ t.entries, ∃ g ∈ entries, g.name = e.name ∧
      modeToKind g.mode = .ok e.kind ∧ made.oidMap[g.oid]? = some e.id
  materializes : ∀ (a : GitOid) id t, made.oidMap[a]? = some id → after.readObject sha256 id = .ok (.ok (.tree t)) →
    ∃ depth, ∀ fuel, depth ≤ fuel → ∀ dir : Place, (dir = none ∨ ∃ l, dir = some (.directory l) ∧
      ∀ e ∈ t.entries, e.name ∈ controlNames → l.get (utf8 e.name) = none) →
        (Folder.materialize sha256 after fuel id dir).1 = .ok ()

/-! ### The entries of a tree -/

/-- The entries that are stored are those for the last entry of each name. -/
theorem exists_last_of_mem_build {image : GitOid → Object} {entries : List GitTreeEntry} {inserts : List TreeEntry}
    (h : List.Forall₂ (EntryImage sha256 image) entries inserts) {e : TreeEntry} (he : e ∈ (Tree.build inserts).entries) :
    ∃ front g back, entries = front ++ g :: back ∧ EntryImage sha256 image g e ∧ ∀ b ∈ back, b.name ≠ g.name := by
  have hget := (Tree.mem_entries_iff _ e).mp he
  rw [Tree.get_build, Tree.lastInserted, List.find?_eq_some_iff_append] at hget
  obtain ⟨hself, later, earlier, hsplit, hlater⟩ := hget
  have hinserts : inserts = earlier.reverse ++ e :: later.reverse := by
    rw [← List.reverse_inj, hsplit]
    simp
  obtain ⟨front, g, back, rfl, hg, hback⟩ := forall₂_split h.flip hinserts
  refine ⟨front, g, back, rfl, hg, fun b hb hname => ?_⟩
  obtain ⟨front', back', hsplit'⟩ := List.append_of_mem hb
  obtain ⟨_, d, _, hd, himage, -⟩ := forall₂_split hback.flip hsplit'
  have hmem : d ∈ later := by
    rw [← List.mem_reverse, hd]
    simp
  have hnot := hlater d hmem
  simp only [Bool.not_eq_true', decide_eq_false_iff_not, not_and] at hnot
  rw [decide_eq_true_eq] at hself
  exact hnot (by rw [himage.name, hname, hg.name]) hself.2

theorem exists_mem_build_of_last {image : GitOid → Object} {entries front back : List GitTreeEntry} {g : GitTreeEntry}
    {inserts : List TreeEntry} (h : List.Forall₂ (EntryImage sha256 image) entries inserts)
    (hsplit : entries = front ++ g :: back) (hlast : ∀ b ∈ back, b.name ≠ g.name) :
    ∃ e ∈ (Tree.build inserts).entries, EntryImage sha256 image g e := by
  obtain ⟨front', e, back', rfl, he, hback⟩ := forall₂_split h hsplit
  refine ⟨e, (Tree.mem_entries_iff _ e).mpr ?_, he⟩
  rw [Tree.get_build, Tree.lastInserted, List.find?_eq_some_iff_append]
  refine ⟨?_, back'.reverse, front'.reverse, by simp, fun d hd => ?_⟩
  · rw [decide_eq_true_eq, he.name]
    exact ⟨rfl, he.valid⟩
  · rw [List.mem_reverse] at hd
    obtain ⟨front₁, back₁, hsplit₁⟩ := List.append_of_mem hd
    obtain ⟨_, b, _, hb, himage, -⟩ := forall₂_split hback.flip hsplit₁
    have hmem : b ∈ back := by
      rw [hb]
      simp
    simp only [Bool.not_eq_true', decide_eq_false_iff_not, not_and]
    intro hname
    exact absurd (himage.name.symm.trans (hname.trans he.name)) (hlast b hmem)

def Object.entryKind : Object → EntryKind
  | .blob _ => .blob
  | .tree _ => .tree

/-- What an object is stored as has its type. -/
theorem Translates.entryKind {a : GitOid} {o : Object} {object : GitObject} (h : Translates sha256 objects a o)
    (hobject : objects[a]? = some object) : object.entryKind = some o.entryKind := by
  cases h with
  | blob h =>
      rw [h] at hobject
      cases hobject
      rfl
  | tree image h _ _ =>
      rw [h] at hobject
      cases hobject
      rfl

theorem entryKind_eq_blob_iff {repo : Repository} {id : ObjectId} {o : Object}
    (h : repo.readObject sha256 id = .ok (.ok o)) :
    o.entryKind = .blob ↔ ∃ bytes, repo.readObject sha256 id = .ok (.ok (.blob bytes)) := by
  rw [h]
  cases o with
  | blob bytes => exact iff_of_true rfl ⟨bytes, rfl⟩
  | tree t => exact iff_of_false (fun heq => by cases heq) fun hsome => hsome.elim fun bytes heq => by cases heq

theorem entryKind_eq_tree_iff {repo : Repository} {id : ObjectId} {o : Object}
    (h : repo.readObject sha256 id = .ok (.ok o)) :
    o.entryKind = .tree ↔ ∃ t, repo.readObject sha256 id = .ok (.ok (.tree t)) := by
  rw [h]
  cases o with
  | blob bytes => exact iff_of_false (fun heq => by cases heq) fun hsome => hsome.elim fun t heq => by cases heq
  | tree t => exact iff_of_true rfl ⟨t, rfl⟩

/-! ### Trees that fit -/

variable {oidMap : BTreeMap GitOid ObjectId} {after : Repository}

/-- A stored entry is for the last entry of its name, and its object is what that one's object is stored as. -/
theorem Stores.entry (h : Stores sha256 objects roots oidMap after) {a : GitOid} {t : Tree}
    (ht : Translates sha256 objects a (.tree t)) (hleads : Leads (Refers objects) roots a) {e : TreeEntry}
    (he : e ∈ t.entries) :
    ∃ front g back o, objects[a]? = some (.tree (front ++ g :: back)) ∧ (∀ b ∈ back, b.name ≠ g.name) ∧
      g.name = e.name ∧ modeToKind g.mode = .ok e.kind ∧ Translates sha256 objects g.oid o ∧
      Leads (Refers objects) roots g.oid ∧ oidMap[g.oid]? = some e.id ∧ after.readObject sha256 e.id = .ok (.ok o) := by
  cases ht with
  | @tree _ entries inserts image hobject hbelow hinserts =>
      obtain ⟨front, g, back, rfl, hg, hlast⟩ := exists_last_of_mem_build hinserts he
      have hmem : g ∈ front ++ g :: back := by simp
      have hdown : Leads (Refers objects) roots g.oid := hleads.tail ⟨_, hobject, List.mem_map_of_mem hmem⟩
      obtain ⟨hid, hread⟩ := h g.oid _ (hbelow g hmem) hdown
      rw [← hg.id] at hid hread
      exact ⟨front, g, back, _, hobject, hlast, hg.name.symm, hg.kind, hbelow g hmem, hdown, hid, hread⟩

/-- Where the modes fit, an entry has the kind of what its object is stored as. -/
theorem Stores.kind (h : Stores sha256 objects roots oidMap after) (hfit : ModesFit objects roots) {a : GitOid} {t : Tree}
    (ht : Translates sha256 objects a (.tree t)) (hleads : Leads (Refers objects) roots a) {e : TreeEntry}
    (he : e ∈ t.entries) :
    ∃ (b : GitOid) (o : Object), Translates sha256 objects b o ∧ Refers objects a b ∧
      after.readObject sha256 e.id = .ok (.ok o) ∧ e.id = o.id sha256 ∧ o.entryKind = e.kind := by
  obtain ⟨front, g, back, o, hobject, hlast, -, hkind, ho, -, -, hread⟩ := h.entry ht hleads he
  obtain ⟨object, hchild, -⟩ := ho.isContent
  have hfits := hfit a _ front g back hleads hobject rfl hlast object e.kind hchild hkind
  have hbelow : Refers objects a g.oid :=
    ⟨_, hobject, List.mem_map_of_mem (List.mem_append_right front List.mem_cons_self)⟩
  refine ⟨g.oid, o, ho, hbelow, hread, (Repository.id_of_readObject sha256 hread).symm, ?_⟩
  rw [ho.entryKind hchild] at hfits
  exact Option.some.inj hfits

/-- Where the modes fit, the store has all of every tree. -/
theorem Stores.whole (h : Stores sha256 objects roots oidMap after) (hfit : ModesFit objects roots) {a : GitOid}
    {o : Object} (ho : Translates sha256 objects a o) (hleads : Leads (Refers objects) roots a) :
    ∃ depth, ∀ fuel, depth ≤ fuel → o.entryKind = .tree → (Folder.stored sha256 after fuel (o.id sha256)).1 = .ok () := by
  induction ho with
  | blob hobject => exact ⟨0, fun _ _ hkind => by cases hkind⟩
  | @tree a entries inserts image hobject hbelow hinserts ih =>
      have ht : Translates sha256 objects a (.tree (.build inserts)) := .tree image hobject hbelow hinserts
      have hopen : Folder.openTree sha256 after ((Object.tree (.build inserts)).id sha256) = .ok (.build inserts) := by
        unfold Folder.openTree
        rw [(h a _ ht hleads).2]
      have hentry : ∀ e ∈ (Tree.build inserts).entries, ∃ n, ∀ m, n ≤ m →
          (Folder.storedEntry sha256 after (Folder.stored sha256 after m) e).1 = .ok () := by
        intro e he
        obtain ⟨b, o, ho, ⟨object, hb, hchild⟩, hread, hid, hkind⟩ := h.kind hfit ht hleads he
        rw [hobject] at hb
        cases hb
        obtain ⟨g, hg, rfl⟩ := List.mem_map.mp hchild
        obtain ⟨n, hn⟩ := ih g hg (hleads.tail ⟨_, hobject, hchild⟩)
        refine ⟨n, fun m hm => ?_⟩
        unfold Folder.storedEntry
        cases he : e.kind with
        | tree =>
            rw [hid, ho.unique (hbelow g hg)]
            refine hn m hm ?_
            rw [← ho.unique (hbelow g hg), hkind, he]
        | blob =>
            obtain ⟨bytes, hbytes⟩ := (entryKind_eq_blob_iff hread).mp (hkind.trans he)
            have hblob : Folder.openBlob sha256 after e = .ok bytes := by
              unfold Folder.openBlob
              rw [hbytes]
            simp only [hblob]
      -- The deepest entry says how deep the tree is.
      obtain ⟨n, hn⟩ := exists_uniform hentry
      refine ⟨n + 1, fun fuel hfuel _ => ?_⟩
      obtain ⟨m, rfl⟩ := Nat.exists_eq_succ_of_ne_zero (Nat.ne_of_gt (Nat.lt_of_lt_of_le (Nat.succ_pos n) hfuel))
      rw [Folder.stored_succ hopen fun e he => hn e he m (Nat.le_of_succ_le_succ hfuel)]

theorem materialize_of_stored {fuel : Nat} {id : ObjectId} {t : Tree}
    (hread : after.readObject sha256 id = .ok (.ok (.tree t)))
    (hstored : (Folder.stored sha256 after fuel id).1 = .ok ()) {dir : Place}
    (hdir : dir = none ∨ ∃ l, dir = some (.directory l) ∧
      ∀ e ∈ t.entries, e.name ∈ controlNames → l.get (utf8 e.name) = none) :
    (Folder.materialize sha256 after fuel id dir).1 = .ok () := by
  rcases hdir with rfl | ⟨l, rfl, hfree⟩
  · exact (Folder.writeTreeInto_none fuel id []).trans hstored
  · refine (Folder.writeTreeInto_clear fuel id [] fun t' ht' e he => ?_).trans hstored
    have hopen : Folder.openTree sha256 after id = .ok t := by
      unfold Folder.openTree
      rw [hread]
    rw [hopen] at ht'
    cases ht'
    rw [Listing.get_filter]
    split
    · rename_i hcontrol
      obtain ⟨n, hn, heq⟩ := isControlName_iff.mp hcontrol
      exact hfree e he (utf8_injective heq ▸ hn)
    · rfl

/-- A tree that an import can read is what a git tree is stored as. -/
theorem Imported.Translated.tree {s : Imported} (h : s.Translated sha256 objects roots before) {a : GitOid}
    {id : ObjectId} {t : Tree} (ha : s.oidMap[a]? = some id) (hread : s.repo.readObject sha256 id = .ok (.ok (.tree t))) :
    Translates sha256 objects a (.tree t) ∧ Leads (Refers objects) roots a ∧ id = (Object.tree t).id sha256 := by
  obtain ⟨o, ho, hid, hread'⟩ := h.image a id ha
  rw [hread, Except.ok.injEq, Except.ok.injEq] at hread'
  subst hread'
  exact ⟨ho, h.reached a (Std.ExtTreeMap.mem_iff_isSome_getElem?.mpr (by rw [ha]; rfl)), hid.symm⟩

theorem wellKinded_of_modesFit {made : GitImport}
    (hstate : Imported.Translated sha256 objects roots before ⟨made.oidMap, after⟩)
    (hstores : Stores sha256 objects roots made.oidMap after) (hfit : ModesFit objects roots) :
    WellKinded sha256 objects before made after := by
  refine ⟨hstate.wrote, fun a id ha => ?_, fun a id t ha hread e he => ?_,
    fun a id t entries ha hread hentries e he => ?_, fun a id t ha hread => ?_⟩
  · obtain ⟨o, ho, -, hread⟩ := hstate.image a id ha
    cases ho with
    | blob hobject => exact .inl ⟨_, hobject, hread⟩
    | tree image hobject _ _ => exact .inr ⟨_, _, hobject, hread⟩
  · obtain ⟨ht, hleads, -⟩ := hstate.tree ha hread
    obtain ⟨b, o, -, -, hreado, -, hkind⟩ := hstores.kind hfit ht hleads he
    rw [← hkind]
    exact ⟨entryKind_eq_blob_iff hreado, entryKind_eq_tree_iff hreado⟩
  · obtain ⟨ht, hleads, -⟩ := hstate.tree ha hread
    obtain ⟨front, g, back, o, hobject, -, hname, hmode, -, -, hid, -⟩ := hstores.entry ht hleads he
    rw [hentries] at hobject
    cases hobject
    exact ⟨g, by simp, hname, hmode, hid⟩
  · obtain ⟨ht, hleads, rfl⟩ := hstate.tree ha hread
    obtain ⟨n, hn⟩ := hstores.whole hfit ht hleads
    exact ⟨n, fun fuel hfuel dir hdir => materialize_of_stored hread (hn fuel hfuel rfl) hdir⟩

/-- An entry of a mode that does not fit has the kind of the mode. -/
theorem modesFit_of_wellKinded {made : GitImport}
    (hall : ∀ (a : GitOid) object, Leads (Refers objects) roots a → objects[a]? = some object →
      object.isContent → ∃ o, Translates sha256 objects a o)
    (hstores : Stores sha256 objects roots made.oidMap after) (hkinded : WellKinded sha256 objects before made after) :
    ModesFit objects roots := by
  intro a entries front g back hleads hobject hsplit hlast object kind hchild hmode
  obtain ⟨o, ho⟩ := hall a _ hleads hobject rfl
  cases ho with
  | blob hblob =>
      rw [hobject] at hblob
      cases hblob
  | @tree _ entries' inserts image hobject' hbelow hinserts =>
      have hentries : entries' = entries := by
        rw [hobject] at hobject'
        cases hobject'
        rfl
      subst hentries
      obtain ⟨ha, hread⟩ := hstores a _ (.tree image hobject hbelow hinserts) hleads
      obtain ⟨e, he, himage⟩ := exists_mem_build_of_last hinserts hsplit hlast
      have hmem : g ∈ entries' := by
        rw [hsplit]
        simp
      obtain ⟨-, hreadg⟩ := hstores g.oid _ (hbelow g hmem) (hleads.tail ⟨_, hobject, List.mem_map_of_mem hmem⟩)
      rw [← himage.id] at hreadg
      obtain ⟨hblob, htree⟩ := hkinded.kinds a _ _ ha hread e he
      rw [← entryKind_eq_blob_iff hreadg] at hblob
      rw [← entryKind_eq_tree_iff hreadg] at htree
      have hmode' : kind = e.kind := Except.ok.inj (hmode.symm.trans himage.kind)
      rw [(hbelow g hmem).entryKind hchild, hmode', Option.some.injEq]
      cases hkind : e.kind with
      | blob => exact hblob.mp hkind
      | tree => exact htree.mp hkind

/-- The trees of an import that goes well are well kinded just where the modes of the git trees fit. -/
theorem import_wellKinded_iff {depth turns : Nat} {made : GitImport} (hapart : IdsApart sha256 objects before)
    (h : importObjects sha1 sha256 objects depth turns refs before = .ok (made, after)) :
    WellKinded sha256 objects before made after ↔ ModesFit objects (refs.map Prod.snd) := by
  obtain ⟨hstate, hall, hstores⟩ := importObjects_images hapart h
  exact ⟨modesFit_of_wellKinded hall hstores, wellKinded_of_modesFit hstate hstores⟩

/-! ### A tree with one file -/

/-- A blob, and a tree that names it with some mode. -/
def fileUnder (sha1 : List UInt8 → GitOid) (mode name : Str) (bytes : List UInt8) : List GitObject :=
  [.blob bytes, singleEntry mode name ((GitObject.blob bytes).oid sha1)]

/-- What is under an id is one of the two, and the ids tell them apart. -/
theorem getElem?_fileUnder {mode name : Str} {bytes : List UInt8}
    (hne : (singleEntry mode name ((GitObject.blob bytes).oid sha1)).oid sha1 ≠ (GitObject.blob bytes).oid sha1)
    (a : GitOid) (o : GitObject) :
    (keyed sha1 (fileUnder sha1 mode name bytes))[a]? = some o ↔
      (o = .blob bytes ∧ a = (GitObject.blob bytes).oid sha1) ∨
        (o = singleEntry mode name ((GitObject.blob bytes).oid sha1) ∧
          a = (singleEntry mode name ((GitObject.blob bytes).oid sha1)).oid sha1) := by
  have hfrom : ∀ {a : GitOid} {o : GitObject}, (keyed sha1 (fileUnder sha1 mode name bytes))[a]? = some o →
      (o = .blob bytes ∧ a = (GitObject.blob bytes).oid sha1) ∨
        (o = singleEntry mode name ((GitObject.blob bytes).oid sha1) ∧
          a = (singleEntry mode name ((GitObject.blob bytes).oid sha1)).oid sha1) := by
    intro a o h
    obtain ⟨hmem, rfl⟩ := mem_of_getElem?_keyed h
    simp only [fileUnder, List.mem_cons, List.not_mem_nil, or_false] at hmem
    rcases hmem with rfl | rfl
    · exact .inl ⟨rfl, rfl⟩
    · exact .inr ⟨rfl, rfl⟩
  refine ⟨hfrom, ?_⟩
  rintro (⟨rfl, rfl⟩ | ⟨rfl, rfl⟩)
  · obtain ⟨o, ho⟩ := @exists_getElem?_keyed sha1 (fileUnder sha1 mode name bytes) _
      (List.mem_map_of_mem List.mem_cons_self)
    rcases hfrom ho with ⟨rfl, -⟩ | ⟨-, heq⟩
    · exact ho
    · exact absurd heq.symm hne
  · obtain ⟨o, ho⟩ := @exists_getElem?_keyed sha1 (fileUnder sha1 mode name bytes) _
      (List.mem_map_of_mem (List.mem_cons_of_mem _ List.mem_cons_self))
    rcases hfrom ho with ⟨-, heq⟩ | ⟨rfl, -⟩
    · exact absurd heq hne
    · exact ho

theorem translates_fileUnder {mode name : Str} {bytes : List UInt8}
    (hne : (singleEntry mode name ((GitObject.blob bytes).oid sha1)).oid sha1 ≠ (GitObject.blob bytes).oid sha1)
    {a : GitOid} {o : Object} (h : Translates sha256 (keyed sha1 (fileUnder sha1 mode name bytes)) a o) :
    o = .blob bytes ∨ ∃ kind, modeToKind mode = .ok kind ∧
      o = .tree (.build [⟨name, kind, (Object.blob bytes).id sha256⟩]) := by
  have hfound := getElem?_fileUnder hne
  cases h with
  | blob hb =>
      rcases (hfound _ _).mp hb with ⟨heq, -⟩ | ⟨heq, -⟩
      · cases heq
        exact .inl rfl
      · cases heq
  | tree image hb hbelow hinserts =>
      rcases (hfound _ _).mp hb with ⟨heq, -⟩ | ⟨heq, -⟩
      · cases heq
      · cases heq
        obtain ⟨e, inserts, he, hnil, rfl⟩ := List.forall₂_cons_left_iff.mp hinserts
        obtain rfl := List.forall₂_nil_left_iff.mp hnil
        have himage : image ((GitObject.blob bytes).oid sha1) = .blob bytes :=
          (hbelow _ List.mem_cons_self).unique (.blob ((hfound _ _).mpr (.inl ⟨rfl, rfl⟩)))
        refine .inr ⟨e.kind, he.kind, ?_⟩
        have hself : e = ⟨name, e.kind, (Object.blob bytes).id sha256⟩ :=
          he.unique ⟨he.valid, rfl, he.kind, by rw [himage]⟩ rfl
        rw [← hself]

theorem idsApart_fileUnder {mode name : Str} {bytes : List UInt8} {kind : EntryKind}
    (hne : (singleEntry mode name ((GitObject.blob bytes).oid sha1)).oid sha1 ≠ (GitObject.blob bytes).oid sha1)
    (hmode : modeToKind mode = .ok kind)
    (hapart : (Object.blob bytes).id sha256 ≠
      (Object.tree (.build [⟨name, kind, (Object.blob bytes).id sha256⟩])).id sha256) :
    IdsApart sha256 (keyed sha1 (fileUnder sha1 mode name bytes)) .init := by
  have hall : ∀ a o, Translates sha256 (keyed sha1 (fileUnder sha1 mode name bytes)) a o →
      o = .blob bytes ∨ o = .tree (.build [⟨name, kind, (Object.blob bytes).id sha256⟩]) := by
    intro a o ho
    refine (translates_fileUnder hne ho).imp_right ?_
    rintro ⟨kind', hmode', rfl⟩
    rw [hmode] at hmode'
    cases hmode'
    rfl
  refine ⟨fun a a' o o' ho ho' hid => ?_, fun a o ho hthere => ?_⟩
  · rcases hall a o ho with rfl | rfl
    · rcases hall a' o' ho' with rfl | rfl
      · rfl
      · exact absurd hid hapart
    · rcases hall a' o' ho' with rfl | rfl
      · exact absurd hid.symm hapart
      · rfl
  · exact absurd hthere (by simp [Repository.hasObject_init])

end

/-- A file under the mode of files is imported well kinded. -/
theorem import_wellKinded_file :
    let objects := fileUnder .ofSha1 "100644".toList "a".toList [1]
    let tree := singleEntry "100644".toList "a".toList ((GitObject.blob [1]).oid .ofSha1)
    ∃ made after, importObjects .ofSha1 .ofSha256 (keyed .ofSha1 objects) 3 3 [("HEAD".toList, tree.oid .ofSha1)] .init =
      .ok (made, after) ∧ WellKinded .ofSha256 (keyed .ofSha1 objects) .init made after := by
  intro objects tree
  have hne : tree.oid .ofSha1 ≠ (GitObject.blob [1]).oid .ofSha1 := by decide +kernel
  have hapart : IdsApart .ofSha256 (keyed .ofSha1 objects) .init :=
    idsApart_fileUnder hne (show modeToKind "100644".toList = .ok .blob by decide) (by decide +kernel)
  have hok : (importObjects .ofSha1 .ofSha256 (keyed .ofSha1 objects) 3 3 [("HEAD".toList, tree.oid .ofSha1)]
      .init).isOk = true := by decide +kernel
  obtain ⟨⟨made, after⟩, hrun⟩ := exists_of_isOk hok
  refine ⟨made, after, hrun, (import_wellKinded_iff hapart hrun).mpr ?_⟩
  intro a entries front g back _ hobject hsplit _ o kind hchild hmode
  have hentries : entries = [⟨"100644".toList, "a".toList, (GitObject.blob [1]).oid .ofSha1⟩] := by
    rcases (getElem?_fileUnder hne a _).mp hobject with ⟨heq, -⟩ | ⟨heq, -⟩
    · cases heq
    · exact GitObject.tree.inj heq
  have hg : g ∈ entries := by
    rw [hsplit]
    simp
  rw [hentries, List.mem_singleton] at hg
  subst hg
  rcases (getElem?_fileUnder hne _ o).mp hchild with ⟨rfl, -⟩ | ⟨-, heq⟩
  · have hkind : modeToKind "100644".toList = .ok .blob := by decide
    cases hkind.symm.trans hmode
    rfl
  · exact absurd heq.symm hne

/-- A file under the mode of directories is imported as well, as a directory that is a file. -/
theorem import_fileUnderDirectory :
    let objects := fileUnder .ofSha1 "40000".toList "a".toList [1]
    let tree := singleEntry "40000".toList "a".toList ((GitObject.blob [1]).oid .ofSha1)
    IdsApart .ofSha256 (keyed .ofSha1 objects) .init ∧
      ∃ made after,
        importObjects .ofSha1 .ofSha256 (keyed .ofSha1 objects) 3 3 [("HEAD".toList, tree.oid .ofSha1)] .init =
          .ok (made, after) ∧ ¬ WellKinded .ofSha256 (keyed .ofSha1 objects) .init made after := by
  intro objects tree
  have hne : tree.oid .ofSha1 ≠ (GitObject.blob [1]).oid .ofSha1 := by decide +kernel
  have hmode : modeToKind "40000".toList = .ok .tree := by decide
  have hapart : IdsApart .ofSha256 (keyed .ofSha1 objects) .init := idsApart_fileUnder hne hmode (by decide +kernel)
  have hok : (importObjects .ofSha1 .ofSha256 (keyed .ofSha1 objects) 3 3 [("HEAD".toList, tree.oid .ofSha1)]
      .init).isOk = true := by decide +kernel
  obtain ⟨⟨made, after⟩, hrun⟩ := exists_of_isOk hok
  refine ⟨hapart, made, after, hrun, fun hkinded => ?_⟩
  obtain ⟨-, hall, hstores⟩ := importObjects_images hapart hrun
  have hfit := modesFit_of_wellKinded hall hstores hkinded
  have hfits := hfit (tree.oid .ofSha1) _ [] _ [] (.root List.mem_cons_self)
    ((getElem?_fileUnder hne _ _).mpr (.inr ⟨rfl, rfl⟩)) rfl (List.forall_mem_nil _) _ _
    ((getElem?_fileUnder hne _ _).mpr (.inl ⟨rfl, rfl⟩)) hmode
  cases hfits

end Omoplata
