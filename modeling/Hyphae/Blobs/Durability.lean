import Hyphae.Blobs.Store

/-!
# Blobs after a crash

A commit that promises durability synchronizes the files it stages and the directory it
renames them into, but a file that is already there it takes as it is. As long as the
files it finds have their names on the disk, and Memory commits bring nothing new, every
crash leaves a namespace that opens and still has every blob of an acknowledged commit.
-/

namespace Hyphae.Blobs

open Lib EStateM OrderedMap List

open Directory EStateM.Result

open Wal (Hashes Digest)
open Hyphae.Runtime (Mutation DurabilityClass)

variable {space space' origin : BlobSpace} {file : File} {reference : BlobReference} {change : BlobSpace → BlobSpace}
  {synchronize : Bool} {staged : StagedBlob} {name : Digest}

/-! ## The namespace on the disk -/

/-- The handle and the final files are the same. -/
structure SameBlobs (space space' : BlobSpace) : Prop where
  store : space'.store = space.store
  directory : space'.blobsDirectory = space.blobsDirectory

theorem SameBlobs.refl (space : BlobSpace) : SameBlobs space space := ⟨rfl, rfl⟩

theorem SameBlobs.trans {a b c : BlobSpace} (h : SameBlobs a b) (h' : SameBlobs b c) : SameBlobs a c :=
  ⟨h'.store.trans h.store, h'.directory.trans h.directory⟩

instance : IsPreorder BlobSpace SameBlobs where
  refl := SameBlobs.refl
  trans _ _ _ := SameBlobs.trans

/-- The spaces differ at most in what becomes of the next operations. -/
def Like (space space' : BlobSpace) : Prop := ∃ outcomes, space' = { space with outcomes }

theorem Like.same (h : Like space space') : SameBlobs space space' := by
  obtain ⟨outcomes, rfl⟩ := h
  exact ⟨rfl, rfl⟩

/-- Every final name that is on the disk stays there. -/
def Kept (space space' : BlobSpace) : Prop :=
  ∀ name file, space.blobsDirectory.durable.get name = some file → space'.blobsDirectory.durable.get name = some file

theorem Kept.refl (space : BlobSpace) : Kept space space := fun _ _ h => h

theorem Kept.trans {a b c : BlobSpace} (h : Kept a b) (h' : Kept b c) : Kept a c :=
  fun name file hfile => h' name file (h name file hfile)

section Invariant

variable (hashes : Hashes) {image : OrderedMap Digest File} {values : List Bytes} {fault : BlobFault}
  {directory : Directory Digest}

/-- The file is whole. -/
def IsBlob (file : File) (reference : BlobReference) : Prop :=
  ∃ content, decodeBlob hashes file.bytes = .ok (reference, content)

theorem IsBlob.id (h : IsBlob hashes file reference) : reference.id = blobIdOf reference.digest := by
  obtain ⟨content, hdecode⟩ := h
  have hreference := ((referenceFor_eq_ok hashes).mp (referenceFor_of_decodeBlob hashes hdecode)).2
  rw [hreference]

theorem IsBlob.unique {reference' : BlobReference} (h : IsBlob hashes file reference)
    (h' : IsBlob hashes file reference') : reference = reference' := by
  obtain ⟨content, hdecode⟩ := h
  obtain ⟨content', hdecode'⟩ := h'
  exact congrArg Prod.fst (Except.ok.inj (hdecode ▸ hdecode'))

/-- Whatever a crash leaves of the final files can be opened. -/
structure DiskSound (directory : Directory Digest) : Prop where
  whole : ∀ name file, directory.Holds name file →
    file.synced ∧ ∃ reference, IsBlob hashes file reference ∧ reference.digest = name
  identities : ∀ name file name' file', directory.Holds name file → directory.Holds name' file' →
    blobIdOf name = blobIdOf name' → name = name'
  present : ∀ name file, directory.durable.get name = some file → directory.current.get name = some file

/-- The final files are sound, and what the handle knows is among them. A file it does not know was left by a
publication that failed. -/
structure Sound (space : BlobSpace) : Prop where
  disk : DiskSound hashes space.blobsDirectory
  enrolled : ∀ id reference, space.store.blobs.get id = some reference →
    reference.id = id ∧ ∃ file, space.blobsDirectory.current.get reference.digest = some file ∧
      IsBlob hashes file reference

/-- What an operation leaves that failed, or at which the process stopped. -/
structure Stopped (origin space : BlobSpace) : Prop where
  sound : Sound hashes space
  kept : Kept origin space

variable {hashes}

theorem Sound.of_same (h : Sound hashes space) (hsame : SameBlobs space space') : Sound hashes space' := by
  obtain ⟨hdisk, henrolled⟩ := h
  constructor
  · rwa [hsame.directory]
  · rwa [hsame.directory, hsame.store]

theorem Sound.stopped (h : Sound hashes space) : Stopped hashes space space := ⟨h, Kept.refl space⟩

theorem Stopped.of_same (h : Stopped hashes origin space) (hsame : SameBlobs space space') :
    Stopped hashes origin space' := by
  refine ⟨h.sound.of_same hsame, fun name file hfile => ?_⟩
  rw [hsame.directory]
  exact h.kept name file hfile

theorem Stopped.trans (h : Stopped hashes origin space) (h' : Stopped hashes space space') :
    Stopped hashes origin space' := ⟨h'.sound, h.kept.trans h'.kept⟩

/-! ## Operations on the disk -/

theorem lift_eq_ok {α : Type} {x : Except BlobError α} {a : α} :
    lift x space = .ok a space' ↔ x = .ok a ∧ space = space' := by
  simp [lift]

/-- A check leaves the space as it is. -/
theorem lift_ensures {α : Type} (x : Except BlobError α) {P : BlobSpace → Prop} {E : BlobFault → BlobSpace → Prop}
    (hfails : ∀ fault space, P space → E fault space) :
    EStateM.Ensures P (lift x) (fun a space => x = .ok a ∧ P space) E := by
  intro space hspace
  cases x with
  | ok a => exact ⟨rfl, hspace⟩
  | error e => exact hfails _ space hspace

theorem touchPartly_cases (change : BlobSpace → BlobSpace) (partly : Nat → BlobSpace → BlobSpace) (space : BlobSpace) :
    (∃ outcomes, touchPartly change partly space = .ok () (change { space with outcomes })) ∨
      ∃ fault progress outcomes, touchPartly change partly space =
        .error fault (partly progress { space with outcomes }) := by
  simp only [touchPartly, bind_apply, get_apply]
  rcases space.outcomes.head? with _ | _ | progress | progress
  · exact .inl ⟨_, rfl⟩
  · exact .inl ⟨_, rfl⟩
  · exact .inr ⟨.blob .io, progress, _, rfl⟩
  · exact .inr ⟨.stopped, progress, _, rfl⟩

theorem touchPartly_eq_ok {partly : Nat → BlobSpace → BlobSpace} {u : Unit}
    (h : touchPartly change partly space = .ok u space') : ∃ outcomes, space' = change { space with outcomes } := by
  rcases touchPartly_cases change partly space with ⟨outcomes, hdone⟩ | ⟨_, _, _, hfails⟩
  · rw [hdone] at h
    exact ⟨outcomes, (ok.inj h).2.symm⟩
  · rw [hfails] at h
    cases h

theorem touchPartly_moves {partly : Nat → BlobSpace → BlobSpace}
    (hchange : ∀ space outcomes, SameBlobs space (change { space with outcomes }))
    (hpartly : ∀ progress space outcomes, SameBlobs space (partly progress { space with outcomes })) :
    EStateM.Moves SameBlobs (touchPartly change partly) := by
  intro space
  rcases touchPartly_cases change partly space with ⟨outcomes, hdone⟩ | ⟨_, progress, outcomes, hfails⟩
  · rw [hdone]
    exact hchange space outcomes
  · rw [hfails]
    exact hpartly progress space outcomes

theorem touch_moves (hchange : ∀ space outcomes, SameBlobs space (change { space with outcomes })) :
    EStateM.Moves SameBlobs (touch change) := by
  refine touchPartly_moves hchange fun progress space outcomes => ?_
  split
  · exact ⟨rfl, rfl⟩
  · exact hchange space outcomes

/-- An operation on the disk is done, or it leaves the space as it was before or after it. -/
theorem touch_ensures (hcommutes : ∀ outcomes, change { space with outcomes } = { change space with outcomes })
    (hbefore : Stopped hashes origin space) (hafter : Stopped hashes origin (change space)) :
    EStateM.Ensures (Like space) (touch change) (fun _ => Like (change space)) (fun _ => Stopped hashes origin) := by
  rintro _ ⟨outcomes, rfl⟩
  rcases touchPartly_cases change (fun progress => if progress = 0 then id else change) { space with outcomes } with
    ⟨rest, hdone⟩ | ⟨_, progress, rest, hfails⟩
  · rw [touch, hdone]
    exact ⟨rest, hcommutes rest⟩
  · rw [touch, hfails]
    dsimp only
    split
    · exact hbefore.of_same ⟨rfl, rfl⟩
    · exact hafter.of_same (hcommutes rest ▸ ⟨rfl, rfl⟩)

/-! ## Staging -/

/-- Staging changes no final file and not the handle, whatever happens. -/
theorem stage_moves (content : Bytes) (synchronize : Bool) :
    EStateM.Moves SameBlobs (stage hashes content synchronize) := by
  have hlift {α : Type} (x : Except BlobError α) : EStateM.Moves SameBlobs (lift x) := .ofExcept _
  have hwrite (name : Digest) (file : File) (space : BlobSpace) (outcomes : List DiskOutcome) :
      SameBlobs space (writeTemporary name file { space with outcomes }) := ⟨rfl, rfl⟩
  have hwriteIf (name : Digest) (file : File) : EStateM.Moves SameBlobs
    (touchIf synchronize (writeTemporary name file)) := by
    unfold touchIf
    split
    · exact touch_moves (hwrite name file)
    · exact .pure _
  refine .bind (hlift _) fun reference => .bind .get fun space => ?_
  cases space.blobsDirectory.current.get reference.digest with
  | some file =>
    refine .bind (touch_moves fun _ _ => ⟨rfl, rfl⟩) fun _ => .bind (hlift _) fun found => ?_
    exact .bind (hlift _) fun _ => .pure _
  | none =>
    refine .bind .get fun space => .bind (hlift _) fun _ => .bind (hlift _) fun _ => ?_
    refine .bind (hlift _) fun encoded => .bind (touch_moves (hwrite _ _)) fun _ => ?_
    refine .bind (touchPartly_moves (hwrite _ _) fun _ => hwrite _ _) fun _ => ?_
    exact .bind (hwriteIf _ _) fun _ => .pure _

/-- A stage is the final file that is there, or a new temporary file, and no other temporary file changes. -/
theorem stage_ok {content : Bytes} (h : stage hashes content synchronize space = .ok staged space') :
    referenceFor hashes content = .ok staged.reference ∧
      (∀ name, name ≠ staged.reference.digest →
        space'.temporaryDirectory.current.get name = space.temporaryDirectory.current.get name) ∧
      ((staged.temporary = false ∧ ∃ file, space.blobsDirectory.current.get staged.reference.digest = some file ∧
          IsBlob hashes file staged.reference) ∨
        (staged.temporary = true ∧ space.blobsDirectory.current.get staged.reference.digest = none ∧
          ∃ file, space'.temporaryDirectory.current.get staged.reference.digest = some file ∧
            file.synced = synchronize ∧ IsBlob hashes file staged.reference)) := by
  simp only [stage, bind_eq_ok, lift_eq_ok, get_apply, ok.injEq] at h
  obtain ⟨reference, _, ⟨hreference, rfl⟩, _, _, ⟨rfl, rfl⟩, h⟩ := h
  cases hfinal : space.blobsDirectory.current.get reference.digest with
  | some file =>
    simp only [hfinal, stageExisting, bind_eq_ok, lift_eq_ok, Except.failIf_eq_ok, not_not, pure_apply, ok.injEq] at h
    obtain ⟨_, _, hread, found, _, ⟨hfound, rfl⟩, _, _, ⟨hsame, rfl⟩, rfl, rfl⟩ := h
    obtain ⟨outcomes, rfl⟩ := touchPartly_eq_ok hread
    refine ⟨hreference, fun _ _ => rfl, .inl ⟨rfl, file, hfinal, found.2, ?_⟩⟩
    rw [hfound, ← hsame]
  | none =>
    simp only [hfinal, stageNew, bind_eq_ok, lift_eq_ok, get_apply, pure_apply, ok.injEq] at h
    obtain ⟨_, _, ⟨rfl, rfl⟩, _, _, ⟨-, rfl⟩, _, _, ⟨-, rfl⟩, encoded, _, ⟨hencoded, rfl⟩, _, created, hcreate, _,
      written, hwrite, _, finished, hfinish, rfl, rfl⟩ := h
    obtain ⟨bytes, hbytes, hdecode⟩ := decodeBlob_encodeBlob hashes hreference
    obtain rfl : encoded = bytes := Except.ok.inj (hencoded ▸ hbytes)
    -- the last of the writes to the temporary name is the one that counts
    have htemporary : ∀ name, finished.temporaryDirectory.current.get name =
        if name = reference.digest then some ⟨encoded, synchronize⟩ else space.temporaryDirectory.current.get name := by
      intro name
      obtain ⟨_, rfl⟩ := touchPartly_eq_ok hcreate
      obtain ⟨_, rfl⟩ := touchPartly_eq_ok hwrite
      cases synchronize with
      | false =>
        obtain ⟨-, rfl⟩ := hfinish
        simp only [writeTemporary, write, get_insert]
        split <;> rfl
      | true =>
        obtain ⟨_, rfl⟩ := touchPartly_eq_ok hfinish
        simp only [writeTemporary, write, get_insert]
        split <;> rfl
    refine ⟨hreference, fun name hname => (htemporary name).trans (if_neg hname), .inr ⟨rfl, hfinal, _,
      (htemporary _).trans (if_pos rfl), rfl, content, hdecode⟩⟩

/-- A final file with the identity of the name has that name, unless the handle knows the identity. -/
def Distinct (space : BlobSpace) (name : Digest) : Prop :=
  space.store.blobs.get (blobIdOf name) = none →
    ∀ name' file, space.blobsDirectory.current.get name' = some file → blobIdOf name' = blobIdOf name → name' = name

theorem Distinct.of_same (h : Distinct space name) (hsame : SameBlobs space space') : Distinct space' name := by
  unfold Distinct
  rwa [hsame.store, hsame.directory]

variable (hashes) in
/-- A staged blob is where its stage says. A file that is reused has its name on the disk if the commit synchronizes,
and a new one has been synchronized. -/
structure Staged (synchronize : Bool) (space : BlobSpace) (name : Digest) (staged : StagedBlob) : Prop where
  named : staged.reference.digest = name
  distinct : Distinct space name
  placed : (staged.temporary = false ∧ ∃ file, space.blobsDirectory.current.get name = some file ∧
      IsBlob hashes file staged.reference ∧ (synchronize → space.blobsDirectory.durable.get name = some file)) ∨
    (staged.temporary = true ∧ synchronize = true ∧
      ∃ file, space.temporaryDirectory.current.get name = some file ∧ file.synced ∧ IsBlob hashes file staged.reference)

/-- A staged blob stays where it is while its two names are left alone. -/
theorem Staged.of_same_entries (h : Staged hashes synchronize space name staged) (hkept : Kept space space')
    (hblobs : space'.blobsDirectory.current.get name = space.blobsDirectory.current.get name)
    (htemporary : space'.temporaryDirectory.current.get name = space.temporaryDirectory.current.get name)
    (hdistinct : Distinct space' name) : Staged hashes synchronize space' name staged := by
  refine ⟨h.named, hdistinct, ?_⟩
  rw [hblobs, htemporary]
  refine h.placed.imp_left ?_
  rintro ⟨hflag, file, hfile, hblob, hdurable⟩
  exact ⟨hflag, file, hfile, hblob, fun hsync => hkept name file (hdurable hsync)⟩

variable (hashes) in
/-- The value can be stored safely: a commit that does not synchronize finds it in the namespace, and one that does
finds no file whose name is not on the disk. -/
structure Storable (space : BlobSpace) (synchronize : Bool) (value : Bytes) : Prop where
  present : synchronize = false → (space.blobsDirectory.current.get (hashes.blake3 value)).isSome
  durable : synchronize → ∀ file, space.blobsDirectory.current.get (hashes.blake3 value) = some file →
    space.blobsDirectory.durable.get (hashes.blake3 value) = some file
  distinct : Distinct space (hashes.blake3 value)

variable (hashes) in
/-- The stages so far, with the values that are still to be staged. -/
structure Staging (origin : BlobSpace) (synchronize : Bool) (rest : List Bytes) (staged : OrderedMap Digest StagedBlob)
    (space : BlobSpace) : Prop where
  same : SameBlobs origin space
  storable : ∀ value ∈ rest, Storable hashes origin synchronize value
  staged : ∀ name blob, staged.get name = some blob → Staged hashes synchronize space name blob

theorem stageBlobValue_ensures (origin : BlobSpace) (value : Bytes) (rest : List Bytes)
    (staged : OrderedMap Digest StagedBlob) :
    EStateM.Ensures (Staging hashes origin synchronize (value :: rest) staged)
      (stageBlobValue hashes synchronize staged value) (Staging hashes origin synchronize rest)
      (fun _ space => SameBlobs origin space) := by
  rintro space ⟨hsame, hstorable, hstaged⟩
  obtain ⟨hvalue, hrest⟩ := forall_mem_cons.mp hstorable
  cases hknown : staged.get (hashes.blake3 value) with
  | some blob =>
    simp only [stageBlobValue, hknown]
    exact ⟨hsame, hrest, hstaged⟩
  | none =>
    simp only [stageBlobValue, hknown, bind_apply]
    cases hstage : stage hashes value synchronize space with
    | error fault space' => exact hsame.trans ((stage_moves value synchronize).error hstage)
    | ok blob space' =>
      have hsame' := (stage_moves value synchronize).ok hstage
      obtain ⟨hreference, hothers, hwhere⟩ := stage_ok hstage
      have hdigest : blob.reference.digest = hashes.blake3 value := by
        rw [((referenceFor_eq_ok hashes).mp hreference).2]
      rw [hdigest] at hothers hwhere
      refine ⟨hsame.trans hsame', hrest, fun name other hget => ?_⟩
      rw [get_insert] at hget
      split at hget
      · rename_i hname
        cases hget
        subst hname
        refine ⟨hdigest, hvalue.distinct.of_same (hsame.trans hsame'), ?_⟩
        rw [hsame'.directory, hsame.directory]
        rw [hsame.directory] at hwhere
        rcases hwhere with ⟨hflag, file, hfile, hblob⟩ | ⟨hflag, hnone, file, hfile, hsynced, hblob⟩
        · exact .inl ⟨hflag, file, hfile, hblob, fun hsync => hvalue.durable hsync file hfile⟩
        · -- content that is not there: the commit synchronizes
          have hsync : synchronize = true := by
            by_contra hfalse
            have hthere := hvalue.present (Bool.not_eq_true _ ▸ hfalse)
            rw [hnone] at hthere
            cases hthere
          exact .inr ⟨hflag, hsync, file, hfile, hsynced.trans hsync, hblob⟩
      · -- the stages before it stand: at most its own temporary name was written
        rename_i hname
        have hother := hstaged name other hget
        refine hother.of_same_entries ?_ (by rw [hsame'.directory]) (hothers name hname)
          (hother.distinct.of_same hsame')
        intro _ _ hdurable
        rwa [hsame'.directory]

/-- Staging the values of a commit: nothing final changes, and every stage stands. -/
theorem stageLargeValues_ensures (hstorable : ∀ value ∈ values, Storable hashes origin synchronize value) :
    EStateM.Ensures (fun space => space = origin) (stageLargeValues hashes values synchronize)
      (fun staged space => SameBlobs origin space ∧ ∀ name blob, staged.get name = some blob →
        Staged hashes synchronize space name blob)
      (fun _ space => SameBlobs origin space) := by
  have hloop := EStateM.Ensures.foldlM (Staging hashes origin synchronize) (stageBlobValue_ensures origin) values .empty
  refine hloop.imp ?_ (fun _ _ h => ⟨h.same, h.staged⟩) fun _ _ h => h
  rintro space rfl
  exact ⟨SameBlobs.refl space, hstorable, by simp⟩

/-! ## Publication -/

theorem DiskSound.sync (h : DiskSound hashes directory) : DiskSound hashes directory.sync where
  whole name file hholds := h.whole name file (holds_sync hholds)
  identities name file name' file' hholds hholds' := h.identities name file name' file' (holds_sync hholds)
    (holds_sync hholds')
  present _ _ hfile := hfile

/-- A synchronized file under a new name whose identity is new. -/
theorem DiskSound.write (h : DiskSound hashes directory) (hblob : IsBlob hashes file reference)
    (hname : reference.digest = name) (hsynced : file.synced) (habsent : directory.current.get name = none)
    (hfresh : ∀ name' file', directory.Holds name' file' → blobIdOf name' ≠ blobIdOf name) :
    DiskSound hashes (directory.write name file) := by
  constructor
  · intro name' file' hholds
    rcases holds_write hholds with ⟨rfl, rfl⟩ | hold
    · exact ⟨hsynced, reference, hblob, hname⟩
    · exact h.whole name' file' hold
  · intro name' file' name'' file'' hholds hholds' hid
    rcases holds_write hholds with ⟨rfl, rfl⟩ | hold
    · rcases holds_write hholds' with ⟨rfl, rfl⟩ | hold'
      · rfl
      · exact absurd hid.symm (hfresh name'' file'' hold')
    · rcases holds_write hholds' with ⟨rfl, rfl⟩ | hold'
      · exact absurd hid (hfresh name' file' hold)
      · exact h.identities name' file' name'' file'' hold hold' hid
  · intro name' file' hdurable
    exact current_write habsent (h.present name' file' hdurable)

/-- What the space is after the file has its final name and both directories are synchronized. -/
def promoted (name : Digest) (file : File) (space : BlobSpace) : BlobSpace :=
  syncTemporary (syncBlobs (promoteFile name file space))

variable (hashes) in
/-- The blob has its final name, and nothing else has changed. -/
structure Placed (synchronize : Bool) (origin : BlobSpace) (reference : BlobReference) (space : BlobSpace) : Prop where
  stopped : Stopped hashes origin space
  store : space.store = origin.store
  others : ∀ name, name ≠ reference.digest →
    space.blobsDirectory.current.get name = origin.blobsDirectory.current.get name ∧
      space.temporaryDirectory.current.get name = origin.temporaryDirectory.current.get name
  placed : ∃ file, space.blobsDirectory.current.get reference.digest = some file ∧ IsBlob hashes file reference ∧
    (synchronize → space.blobsDirectory.durable.get reference.digest = some file)

/-- Promotion ends with the file under its final name on the disk, or stops on the way. -/
theorem promote_ensures (hsound : Sound hashes origin) (hdistinct : Distinct origin staged.reference.digest)
    (hnext : ∀ known ∈ origin.store.blobs.get staged.reference.id, known = staged.reference)
    (htemporary : origin.temporaryDirectory.current.get staged.reference.digest = some file) (hsynced : file.synced)
    (hblob : IsBlob hashes file staged.reference) :
    EStateM.Ensures (Like origin) (promote staged true) (fun _ => Placed hashes true origin staged.reference)
      (fun _ => Stopped hashes origin) := by
  rintro _ ⟨outcomes, rfl⟩
  unfold promote
  rw [bind_apply, get_apply]
  dsimp only
  by_cases habsent : origin.blobsDirectory.current.get staged.reference.digest = none
  · -- the handle knows a file of the name or of its identity only if it is there
    have hfresh : ∀ name file, origin.blobsDirectory.Holds name file →
      blobIdOf name ≠ blobIdOf staged.reference.digest := by
      intro name file hholds hid
      have hcurrent : origin.blobsDirectory.current.get name = some file :=
        hholds.elim id (hsound.disk.present name file)
      cases hknown : origin.store.blobs.get (blobIdOf staged.reference.digest) with
      | none =>
        rw [hdistinct hknown name file hcurrent hid, habsent] at hcurrent
        cases hcurrent
      | some known =>
        obtain ⟨-, _, hfile, -⟩ := hsound.enrolled _ known hknown
        rw [hnext known (hblob.id ▸ hknown), habsent] at hfile
        cases hfile
    have hrenamed : Stopped hashes origin (promoteFile staged.reference.digest file origin) := by
      refine ⟨⟨hsound.disk.write hblob rfl hsynced habsent hfresh, fun id known hknown => ?_⟩, Kept.refl origin⟩
      obtain ⟨hid, file', hfile, hblob'⟩ := hsound.enrolled id known hknown
      exact ⟨hid, file', current_write habsent hfile, hblob'⟩
    have hsynchronized : Stopped hashes origin (syncBlobs (promoteFile staged.reference.digest file origin)) :=
      ⟨⟨hrenamed.sound.disk.sync, hrenamed.sound.enrolled⟩, hrenamed.sound.disk.present⟩
    have hpromoted : Stopped hashes origin (promoted staged.reference.digest file origin) :=
      hsynchronized.of_same ⟨rfl, rfl⟩
    simp only [habsent, htemporary, Option.isSome_none, Bool.false_eq_true, touchIf, if_true]
    have hrun := ((touch_ensures (fun _ => rfl) hsound.stopped hrenamed).bind fun _ =>
      (touch_ensures (fun _ => rfl) hrenamed hsynchronized).bind fun _ =>
        touch_ensures (fun _ => rfl) hsynchronized hpromoted)
    refine hrun.imp (fun _ h => h) ?_ (fun _ _ h => h) _ ⟨outcomes, rfl⟩
    rintro _ _ ⟨_, rfl⟩
    refine ⟨hpromoted.of_same ⟨rfl, rfl⟩, rfl, fun name hne => ?_, file, ?_, hblob, fun _ => ?_⟩
    · exact ⟨(get_insert _ _ _ _).trans (if_neg hne), (get_erase _ _ _).trans (if_neg hne)⟩
    · exact (get_insert _ _ _ _).trans (if_pos rfl)
    · exact (get_insert _ _ _ _).trans (if_pos rfl)
  · rw [bind_apply, lift, Except.failIf_of (Option.isSome_iff_ne_none.mpr habsent)]
    exact hsound.stopped.of_same ⟨rfl, rfl⟩

theorem nextGeneration_ok {store : BlobStore} {next : Bool × Nat} (h : nextGeneration store reference = .ok next) :
    ∀ known ∈ store.blobs.get reference.id, known = reference := by
  intro known hknown
  by_contra hne
  simp [nextGeneration, Option.mem_def.mp hknown, hne] at h

theorem get_insertReference {blobs : OrderedMap BlobId BlobReference}
    {inserted : OrderedMap BlobId BlobReference × Bool}
    (h : insertReference blobs reference = .ok inserted) (id : BlobId) :
    inserted.1.get id = if id = reference.id then some reference else blobs.get id := by
  unfold insertReference at h
  split at h
  · rename_i known hknown
    split at h
    · cases h
    · rename_i hsame
      cases h
      split
      · rename_i hid
        rw [hid, hknown, not_not.mp hsame]
      · rfl
  · cases h
    rw [get_insert]
    congr

variable (hashes) in
/-- The blob is on the disk under its name. -/
def OnDisk (directory : Directory Digest) (reference : BlobReference) : Prop :=
  ∃ file, directory.durable.get reference.digest = some file ∧ IsBlob hashes file reference

theorem OnDisk.of_kept (h : OnDisk hashes space.blobsDirectory reference) (hkept : Kept space space') :
    OnDisk hashes space'.blobsDirectory reference := by
  obtain ⟨file, hfile, hblob⟩ := h
  exact ⟨file, hkept _ file hfile, hblob⟩

variable (hashes) in
/-- The blob is published: on the disk if the commit synchronizes, and the other stages stand. -/
structure Published (synchronize : Bool) (origin : BlobSpace) (reference : BlobReference) (space : BlobSpace) :
    Prop where
  stopped : Stopped hashes origin space
  onDisk : synchronize → OnDisk hashes space.blobsDirectory reference
  others : ∀ name staged, name ≠ reference.digest → Staged hashes synchronize origin name staged →
    Staged hashes synchronize space name staged

/-- The handle learns of a blob that has its final name. -/
theorem enroll_ensures (reference : BlobReference) (isNew : Bool) (generation : Nat) :
    EStateM.Ensures (Placed hashes synchronize origin reference) (enroll reference isNew generation)
      (fun found space => found = reference ∧ Published hashes synchronize origin reference space)
      (fun _ => Stopped hashes origin) := by
  intro space h
  obtain ⟨file, hfile, hblob, hdurable⟩ := h.placed
  unfold enroll
  rw [bind_apply, get_apply]
  dsimp only
  refine ((lift_ensures _ fun _ _ hsame => ?_).bind fun inserted => (lift_ensures _ fun _ _ hsame => ?_).bind fun _ =>
    ?_) space rfl
  · exact hsame ▸ h.stopped
  · exact hsame.2 ▸ h.stopped
  · rintro _ ⟨-, hinsert, rfl⟩
    have hknown := get_insertReference hinsert
    refine ⟨rfl, ⟨⟨h.stopped.sound.disk, fun id known hget => ?_⟩, h.stopped.kept⟩, fun hsync =>
      ⟨file, hdurable hsync, hblob⟩, fun name staged hne hstaged => ?_⟩
    · rw [hknown] at hget
      split at hget
      · cases hget
        exact ⟨Eq.symm ‹_›, file, hfile, hblob⟩
      · exact h.stopped.sound.enrolled id known hget
    · refine hstaged.of_same_entries h.stopped.kept (h.others name hne).1 (h.others name hne).2 ?_
      -- the new name's identity is known now, the other names were there
      intro hnone name' file' hfile' hid
      rw [hknown] at hnone
      split at hnone
      · cases hnone
      · rename_i hother
        have hne' : name' ≠ reference.digest := by
          rintro rfl
          exact hother (hid.symm.trans hblob.id.symm)
        exact hstaged.distinct (h.store ▸ hnone) name' file' ((h.others name' hne').1 ▸ hfile') hid

/-- Publication of one staged blob. -/
theorem publish_ensures (hsound : Sound hashes origin) (hstaged : Staged hashes synchronize origin name staged) :
    EStateM.Ensures (Like origin) (publish staged synchronize)
      (fun found space => found = staged.reference ∧ Published hashes synchronize origin staged.reference space)
      (fun _ => Stopped hashes origin) := by
  rintro _ ⟨outcomes, rfl⟩
  obtain ⟨rfl, hdistinct, hplaced⟩ := hstaged
  have hfails : ∀ (_ : BlobFault) (space : BlobSpace), Like origin space → Stopped hashes origin space :=
    fun _ _ hlike => hsound.stopped.of_same hlike.same
  unfold publish
  rw [bind_apply, get_apply]
  rcases hplaced with ⟨hflag, file, hfile, hblob, hdurable⟩ | ⟨hflag, rfl, file, hfile, hsynced, hblob⟩
  · -- the final file is there
    simp only [hflag, Bool.false_eq_true, if_false]
    refine ((lift_ensures _ hfails).bind fun next => (enroll_ensures staged.reference _ _).imp ?_ (fun _ _ h => h)
      fun _ _ h => h) _ ⟨outcomes, rfl⟩
    rintro _ ⟨-, _, rfl⟩
    exact ⟨hsound.stopped.of_same ⟨rfl, rfl⟩, rfl, fun _ _ => ⟨rfl, rfl⟩, file, hfile, hblob, hdurable⟩
  · simp only [hflag, if_true]
    refine ((lift_ensures _ hfails).bind fun next => EStateM.Ensures.bind ?_ fun _ =>
      enroll_ensures staged.reference _ _) _ ⟨outcomes, rfl⟩
    rintro space ⟨hnext, hlike⟩
    exact promote_ensures hsound hdistinct (nextGeneration_ok hnext) hfile hsynced hblob space hlike

variable (hashes) in
/-- The references so far, with the stages that are still to be published. -/
structure Publishing (origin : BlobSpace) (synchronize : Bool) (rest : List (Digest × StagedBlob))
    (references : OrderedMap Digest BlobReference) (space : BlobSpace) : Prop where
  stopped : Stopped hashes origin space
  ascending : KeyAscending rest
  staged : ∀ entry ∈ rest, Staged hashes synchronize space entry.1 entry.2
  references : synchronize → ∀ reference ∈ references.values, OnDisk hashes space.blobsDirectory reference

theorem publishStagedBlob_ensures (entry : Digest × StagedBlob) (rest : List (Digest × StagedBlob))
    (references : OrderedMap Digest BlobReference) :
    EStateM.Ensures (Publishing hashes origin synchronize (entry :: rest) references)
      (publishStagedBlob synchronize references entry) (Publishing hashes origin synchronize rest)
      (fun _ => Stopped hashes origin) := by
  rintro space ⟨hstopped, hascending, hstaged, hreferences⟩
  obtain ⟨hfirst, hrest⟩ := keyAscending_cons.mp hascending
  obtain ⟨hentry, hstaged⟩ := forall_mem_cons.mp hstaged
  refine (((publish_ensures hstopped.sound hentry).imp (fun _ h => h) (fun _ _ h => h) fun _ _ h => ?_).bind
    fun found => ?_) space ⟨space.outcomes, rfl⟩
  · exact hstopped.trans h
  · rintro after ⟨rfl, hpublished⟩
    refine ⟨hstopped.trans hpublished.stopped, hrest, fun other hother => ?_, fun hsync reference hreference => ?_⟩
    · -- the names ascend, so no later stage has the name just published
      exact hpublished.others other.1 other.2 (hentry.named ▸ (hfirst other hother).ne') (hstaged other hother)
    · obtain ⟨name, hget⟩ := mem_values.mp hreference
      rw [get_insert] at hget
      split at hget
      · cases hget
        exact hpublished.onDisk hsync
      · exact (hreferences hsync reference (mem_values.mpr ⟨name, hget⟩)).of_kept hpublished.stopped.kept

/-- The blob part of a commit. -/
theorem commitBlobs_ensures (hsound : Sound hashes origin) {durability : DurabilityClass}
    (hstorable : ∀ value ∈ values, Storable hashes origin (decide (durability ≠ .memory)) value) :
    EStateM.Ensures (fun space => space = origin) (commitBlobs hashes durability values)
      (fun references space => Stopped hashes origin space ∧
        (durability ≠ .memory → ∀ reference ∈ references.values, OnDisk hashes space.blobsDirectory reference))
      (fun _ => Stopped hashes origin) := by
  refine ((stageLargeValues_ensures hstorable).imp (fun _ h => h) (fun _ _ h => h) ?_).bind fun staged => ?_
  · exact fun _ _ hsame => hsound.stopped.of_same hsame
  · have hloop := EStateM.Ensures.foldlM (Publishing hashes origin (decide (durability ≠ .memory)))
      publishStagedBlob_ensures staged.entries .empty
    refine hloop.imp ?_ (fun _ _ h => ⟨h.stopped, fun hsync => h.references (decide_eq_true hsync)⟩) fun _ _ h => h
    rintro space ⟨hsame, hstaged⟩
    refine ⟨hsound.stopped.of_same hsame, staged.ascending, fun entry hentry => ?_, fun _ => nofun⟩
    exact hstaged entry.1 entry.2 (mem_entries.mp hentry)

/-! ## Opening what a crash left -/

/-- Every file is whole and no two share an identity: they are all loaded. -/
theorem load_ok {entries : List (Digest × File)}
    (hwhole : ∀ entry ∈ entries, ∃ reference, IsBlob hashes entry.2 reference ∧ reference.digest = entry.1)
    (hids : (entries.map fun entry => blobIdOf entry.1).Nodup) (blobs : OrderedMap BlobId BlobReference)
    (hnew : ∀ entry ∈ entries, blobs.get (blobIdOf entry.1) = none) :
    ∃ blobs', entries.foldlM (loadEntry hashes) blobs = .ok blobs' ∧ ∀ id reference,
      blobs'.get id = some reference ↔ blobs.get id = some reference ∨
        ∃ entry ∈ entries, IsBlob hashes entry.2 reference ∧ reference.digest = entry.1 ∧ reference.id = id := by
  induction entries generalizing blobs with
  | nil => exact ⟨blobs, rfl, by simp⟩
  | cons entry entries ih =>
    obtain ⟨reference, hblob, hdigest⟩ := hwhole entry mem_cons_self
    have hid : reference.id = blobIdOf entry.1 := by rw [hblob.id, hdigest]
    have hnone : blobs.get reference.id = none := by rw [hid]; exact hnew entry mem_cons_self
    obtain ⟨hnotin, hnodup⟩ := nodup_cons.mp hids
    have hload : loadEntry hashes blobs entry = .ok (blobs.insert reference.id reference) := by
      obtain ⟨content, hdecode⟩ := hblob
      simp [loadEntry, hdecode, hdigest, Except.failIf, insertReference, hnone]
    have hnew' : ∀ other ∈ entries, (blobs.insert reference.id reference).get (blobIdOf other.1) = none := by
      intro other hother
      rw [get_insert, if_neg, hnew other (mem_cons_of_mem _ hother)]
      rw [hid]
      intro heq
      exact hnotin (mem_map.mpr ⟨other, hother, heq⟩)
    obtain ⟨blobs', hok, hspec⟩ := ih (fun other hother => hwhole other (mem_cons_of_mem _ hother)) hnodup _ hnew'
    refine ⟨blobs', by rw [foldlM_cons, hload]; exact hok, fun id found => ?_⟩
    rw [hspec, get_insert]
    simp only [mem_cons, exists_eq_or_imp]
    constructor
    · rintro (h | h)
      · split at h
        · rename_i heq
          cases h
          exact .inr (.inl ⟨hblob, hdigest, heq.symm⟩)
        · exact .inl h
      · exact .inr (.inr h)
    · rintro (h | ⟨hfound, -, rfl⟩ | h)
      · refine .inl ?_
        rw [if_neg, h]
        rintro rfl
        rw [hnone] at h
        cases h
      · obtain rfl := hfound.unique hashes hblob
        exact .inl (if_pos rfl)
      · exact .inr h

/-- Sound files open, and what is on the disk can be read. -/
theorem open_ok (h : DiskSound hashes directory) (temporary : Directory Digest) (floor : Nat) :
    ∃ space, openWithGenerationFloor hashes directory temporary floor = .ok space ∧ Sound hashes space ∧
      space.blobsDirectory = directory ∧ ∀ reference, OnDisk hashes directory reference →
        ∃ content, read hashes space reference = .ok content ∧ referenceFor hashes content = .ok reference := by
  have hnames : (directory.current.entries.map fun entry => blobIdOf entry.1).Nodup := by
    refine List.Nodup.map_on ?_ directory.current.ascending.nodup
    intro entry hentry entry' hentry' hid
    have hget := mem_entries.mp hentry
    have hget' := mem_entries.mp hentry'
    have hname := h.identities _ _ _ _ (.inl hget) (.inl hget') hid
    refine Prod.ext hname ?_
    rw [hname, hget'] at hget
    exact (Option.some.inj hget).symm
  obtain ⟨blobs, hload, hspec⟩ := load_ok
    (fun entry hentry => (h.whole entry.1 entry.2 (.inl (mem_entries.mp hentry))).2) hnames empty (by simp)
  refine ⟨_, by rw [openWithGenerationFloor, hload]; rfl, ⟨h, fun id reference hget => ?_⟩, rfl, ?_⟩
  · rcases (hspec id reference).mp hget with hnone | ⟨entry, hentry, hblob, hdigest, hid⟩
    · simp at hnone
    · exact ⟨hid, entry.2, hdigest ▸ mem_entries.mp hentry, hblob⟩
  · rintro reference ⟨file, hdurable, hblob⟩
    have hcurrent := h.present _ _ hdurable
    have hget := (hspec _ reference).mpr (.inr ⟨(_, file), mem_entries.mpr hcurrent, hblob, rfl, rfl⟩)
    obtain ⟨content, hdecode⟩ := hblob
    refine ⟨content, ?_, referenceFor_of_decodeBlob hashes hdecode⟩
    simp [read, hget, hcurrent, Except.okOr, Except.failIf, hdecode]

/-- Whatever a crash leaves is sound, with every name that was on the disk. -/
theorem DiskSound.survives (h : DiskSound hashes directory) (hsurvives : directory.Survives image) :
    DiskSound hashes (.ofImage image) ∧
      ∀ name file, directory.durable.get name = some file → image.get name = some file := by
  have hholds : ∀ name file, (ofImage image).Holds name file → directory.Holds name file := fun name file hget =>
    hsurvives.holds (fun name file hold => (h.whole name file hold).1) (holds_ofImage.mp hget)
  refine ⟨⟨fun name file hget => h.whole name file (hholds name file hget), ?_, fun _ _ hget => hget⟩, ?_⟩
  · exact fun name file name' file' hget hget' => h.identities name file name' file' (hholds _ _ hget)
      (hholds _ _ hget')
  · intro name file hdurable
    have hcurrent := h.present name file hdurable
    obtain ⟨left, hleft⟩ := Option.isSome_iff_exists.mp (hsurvives.kept name (by rw [hdurable]; rfl)
      (by rw [hcurrent]; rfl))
    rcases hholds name left (.inl hleft) with hold | hold
    · rwa [hleft, ← hold]
    · rwa [hleft, ← hold]

end Invariant

/-! ## Histories -/

/-- One attempt to commit: what the batch stores, what becomes of its operations on the disk, and whether the commit is
acknowledged once its blobs are published. -/
structure CommitRequest where
  durability : DurabilityClass
  definitions : List Bytes
  mutations : List Mutation
  outcomes : List DiskOutcome
  completes : Bool

/-- The values of the request that go to the blob store. -/
def CommitRequest.values (request : CommitRequest) : List Bytes := largeValues request.definitions request.mutations

/-- The namespace, whether a process has it open, and the blobs of the acknowledged Strict and Group commits. -/
structure World where
  space : BlobSpace
  running : Bool
  acknowledged : List BlobReference

/-- `BlobStore::create`. -/
def createdSpace : BlobSpace where
  store := ⟨OrderedMap.empty, 0, 0, 0⟩
  blobsDirectory := .ofImage OrderedMap.empty
  temporaryDirectory := .ofImage OrderedMap.empty
  outcomes := []

section Histories

variable (hashes : Hashes)

def afterCommit (world : World) (request : CommitRequest) : World :=
  match commitBlobs hashes request.durability request.values { world.space with outcomes := request.outcomes } with
  | .ok references space =>
    { space
      running := true
      acknowledged :=
        if request.completes ∧ request.durability ≠ .memory then world.acknowledged ++ references.values
        else world.acknowledged }
  | .error fault space => { world with space, running := fault ≠ .stopped }

/-- The worlds reached by commits that `allowed` admits, by losing the power and opening what is left, and by opening
the namespace again while the power stays. -/
inductive Reached (allowed : BlobSpace → CommitRequest → Prop) : World → Prop
  | created : Reached allowed ⟨createdSpace, true, []⟩
  | commit {world : World} (request : CommitRequest) : Reached allowed world → world.running →
      allowed world.space request → Reached allowed (afterCommit hashes world request)
  | reopened {world : World} {image temporary : OrderedMap Digest File} (floor : Nat) {space : BlobSpace} :
      Reached allowed world → world.space.blobsDirectory.Survives image →
      world.space.temporaryDirectory.Survives temporary →
      openWithGenerationFloor hashes (.ofImage image) (.ofImage temporary) floor = .ok space →
      Reached allowed ⟨space, true, world.acknowledged⟩
  | restarted {world : World} (floor : Nat) {space : BlobSpace} : Reached allowed world →
      openWithGenerationFloor hashes world.space.blobsDirectory world.space.temporaryDirectory floor = .ok space →
      Reached allowed ⟨space, true, world.acknowledged⟩

/-- Whatever a crash leaves, the namespace opens and has every blob of an acknowledged Strict or Group commit,
complete. -/
def Recoverable (world : World) : Prop :=
  ∀ image temporary floor, world.space.blobsDirectory.Survives image →
    world.space.temporaryDirectory.Survives temporary →
    ∃ space, openWithGenerationFloor hashes (.ofImage image) (.ofImage temporary) floor = .ok space ∧
      ∀ reference ∈ world.acknowledged,
        ∃ content, read hashes space reference = .ok content ∧ referenceFor hashes content = .ok reference

/-- Every value of the commit can be stored safely. -/
def StoresSafely (space : BlobSpace) (request : CommitRequest) : Prop :=
  ∀ value ∈ request.values, Storable hashes space (decide (request.durability ≠ .memory)) value

structure WorldSound (world : World) : Prop where
  sound : Sound hashes world.space
  acknowledged : ∀ reference ∈ world.acknowledged, OnDisk hashes world.space.blobsDirectory reference

variable {hashes} in
/-- A crash leaves sound files, with the blobs of the acknowledged commits. -/
theorem WorldSound.survives {world : World} {image : OrderedMap Digest File} (h : WorldSound hashes world)
    (hsurvives : world.space.blobsDirectory.Survives image) :
    DiskSound hashes (.ofImage image) ∧ ∀ reference ∈ world.acknowledged, OnDisk hashes (.ofImage image) reference := by
  obtain ⟨hdisk, hkept⟩ := h.sound.disk.survives hsurvives
  refine ⟨hdisk, fun reference hold => ?_⟩
  obtain ⟨file, hfile, hblob⟩ := h.acknowledged reference hold
  exact ⟨file, hkept _ file hfile, hblob⟩

theorem createdSpace_sound : Sound hashes createdSpace := by
  refine ⟨?_, by simp [createdSpace]⟩
  constructor <;> simp [createdSpace, ofImage, Directory.Holds]

theorem WorldSound.afterCommit {world : World} (h : WorldSound hashes world) {request : CommitRequest}
    (hallowed : StoresSafely hashes world.space request) : WorldSound hashes (afterCommit hashes world request) := by
  have hsound : Sound hashes { world.space with outcomes := request.outcomes } := h.sound.of_same ⟨rfl, rfl⟩
  have hstorable : ∀ value ∈ request.values, Storable hashes { world.space with outcomes := request.outcomes }
      (decide (request.durability ≠ .memory)) value :=
    fun value hvalue => ⟨(hallowed value hvalue).present, (hallowed value hvalue).durable,
      (hallowed value hvalue).distinct⟩
  have hspec := commitBlobs_ensures hsound hstorable
  unfold Blobs.afterCommit
  cases hcommit : commitBlobs hashes request.durability request.values
    { world.space with outcomes := request.outcomes } with
  | ok references space =>
    obtain ⟨hstopped, hreferences⟩ := hspec.ok rfl hcommit
    refine ⟨hstopped.sound, fun reference hreference => ?_⟩
    dsimp only at hreference
    split at hreference
    · rcases mem_append.mp hreference with hold | hnew
      · exact (h.acknowledged reference hold).of_kept hstopped.kept
      · exact hreferences (And.right ‹_›) reference hnew
    · exact (h.acknowledged reference hreference).of_kept hstopped.kept
  | error fault space =>
    have hstopped := hspec.error rfl hcommit
    exact ⟨hstopped.sound, fun reference hold => (h.acknowledged reference hold).of_kept hstopped.kept⟩

/-- In every history whose commits store their values safely, the blobs of the acknowledged Strict and Group commits
survive every crash. -/
theorem durable_blobs_survive {world : World} (h : Reached hashes (StoresSafely hashes) world) :
    Recoverable hashes world := by
  have hworld : WorldSound hashes world := by
    induction h with
    | created => exact ⟨createdSpace_sound hashes, by simp⟩
    | commit request _ _ hallowed ih => exact ih.afterCommit hashes hallowed
    | @reopened world image temporary floor space _ hblobs _ hopen ih =>
      obtain ⟨hdisk, hacknowledged⟩ := ih.survives hblobs
      obtain ⟨opened, hopened, hsound, hdirectory, -⟩ := open_ok hdisk (.ofImage temporary) floor
      obtain rfl : space = opened := Except.ok.inj (hopen ▸ hopened)
      exact ⟨hsound, fun reference hold => hdirectory ▸ hacknowledged reference hold⟩
    | @restarted world floor space _ hopen ih =>
      obtain ⟨opened, hopened, hsound, hdirectory, -⟩ := open_ok ih.sound.disk world.space.temporaryDirectory floor
      obtain rfl : space = opened := Except.ok.inj (hopen ▸ hopened)
      exact ⟨hsound, fun reference hold => hdirectory ▸ ih.acknowledged reference hold⟩
  intro image temporary floor hblobs _
  obtain ⟨hdisk, hacknowledged⟩ := hworld.survives hblobs
  obtain ⟨opened, hopened, -, -, hreads⟩ := open_ok hdisk (.ofImage temporary) floor
  exact ⟨opened, hopened, fun reference hold => hreads reference (hacknowledged reference hold)⟩

end Histories

/-! ## A value stored twice -/

section Reuse

variable {hashes : Hashes} {content : Bytes} (hreference : referenceFor hashes content = .ok reference)
include hreference

/-- A commit of one value stages and publishes it. -/
theorem commitBlobs_single {durability : DurabilityClass}
    (hstage : stage hashes content (decide (durability ≠ .memory)) space = .ok staged space') :
    commitBlobs hashes durability [content] space =
      publishStagedBlob (decide (durability ≠ .memory)) empty (reference.digest, staged) space' := by
  have hdigest : hashes.blake3 content = reference.digest := by rw [((referenceFor_eq_ok hashes).mp hreference).2]
  have hentries : (empty.insert reference.digest staged).entries = [(reference.digest, staged)] := rfl
  unfold commitBlobs
  generalize decide (durability ≠ .memory) = synchronize at hstage ⊢
  simp [-bind_pure_comp, stageLargeValues, stageBlobValue, hstage, hdigest, bind_apply, publishStagedBlobs, hentries]
  cases publishStagedBlob synchronize empty (reference.digest, staged) space' <;> rfl

/-- New content on a disk that works: a final file, synchronized or not. -/
theorem commitBlobs_created (durability : DurabilityClass) :
    ∃ encoded references space, commitBlobs hashes durability [content] createdSpace = .ok references space ∧
      references.values = [reference] ∧ decodeBlob hashes encoded = .ok (reference, content) ∧
      space.blobsDirectory.current = empty.insert reference.digest ⟨encoded, decide (durability ≠ .memory)⟩ ∧
      space.store.blobs.get reference.id = some reference ∧
      (durability = .memory → space.blobsDirectory.durable = empty ∧ space.temporaryDirectory.durable = empty) := by
  obtain ⟨encoded, hencoded, hdecode⟩ := decodeBlob_encodeBlob hashes hreference
  have hstage (synchronize : Bool) : ∃ space, stage hashes content synchronize createdSpace = .ok ⟨reference,
      true⟩ space ∧ space.store = createdSpace.store ∧ space.blobsDirectory = .ofImage empty ∧ space.outcomes = [] ∧
      space.temporaryDirectory.current.get reference.digest = some ⟨encoded, synchronize⟩ ∧
      space.temporaryDirectory.durable = empty := by
    cases synchronize <;> simp [-bind_pure_comp, stage, stageNew, lift, touch, touchPartly, touchIf, hreference,
      hencoded, createdSpace, bind_apply, EStateM.ofExcept, Except.mapError, Except.failIf, ofImage, writeTemporary,
        write, get_insert]
  obtain ⟨space, hstage, hstore, hblobs, houtcomes, htemporary, hdurable⟩ := hstage (decide (durability ≠ .memory))
  have hvalues : (empty.insert reference.digest reference).values = [reference] := rfl
  refine ⟨encoded, ?_⟩
  rw [commitBlobs_single hreference hstage]
  by_cases hmemory : durability = .memory
  all_goals simp [-bind_pure_comp, hmemory, bind_apply, publishStagedBlob, publish, nextGeneration, hstore, hblobs,
    houtcomes, htemporary, hdurable, hvalues, createdSpace, lift, Except.mapError, Except.map, EStateM.ofExcept,
    Except.okOr, checkedAdd, promote, promoteFile, touch, touchPartly, touchIf, syncBlobs, syncTemporary, sync, enroll,
    insertReference, get_insert, write, remove, ofImage, Except.failIf, hdecode]

/-- A Strict commit whose directory is not synchronized: the file has its final name, and the handle does not know
it. -/
theorem commitBlobs_unsynchronized :
    ∃ encoded space, commitBlobs hashes .strict [content]
        { createdSpace with outcomes := [.done, .done, .done, .done, .failed 0] } = .error (.blob .io) space ∧
      decodeBlob hashes encoded = .ok (reference, content) ∧
      space.blobsDirectory = ⟨empty.insert reference.digest ⟨encoded, true⟩, empty⟩ ∧ space.store = createdSpace.store ∧
      space.temporaryDirectory.durable = empty := by
  obtain ⟨encoded, hencoded, hdecode⟩ := decodeBlob_encodeBlob hashes hreference
  have hdigest : hashes.blake3 content = reference.digest := by rw [((referenceFor_eq_ok hashes).mp hreference).2]
  have hentries (staged : StagedBlob) : (empty.insert reference.digest staged).entries = [(reference.digest, staged)] :=
    rfl
  refine ⟨encoded, ?_⟩
  simp [-bind_pure_comp, commitBlobs, stageLargeValues, stageBlobValue, hdigest, hentries, publishStagedBlobs, stage,
    stageNew, lift, touch, touchPartly, touchIf, hreference, hencoded, hdecode, createdSpace, bind_apply,
    EStateM.ofExcept, Except.mapError, Except.failIf, ofImage, writeTemporary, write, get_insert, publishStagedBlob,
    publish, nextGeneration, Except.map, Except.okOr, checkedAdd, promote, promoteFile, remove]

/-- Content that is there is taken as it is, whatever the commit promises. -/
theorem commitBlobs_present (hfile : space.blobsDirectory.current.get reference.digest = some file)
    (hdecode : decodeBlob hashes file.bytes = .ok (reference, content))
    (hstore : space.store.blobs.get reference.id = some reference ∨ space.store = createdSpace.store)
    (durability : DurabilityClass) :
    ∃ space', commitBlobs hashes durability [content] { space with outcomes := [] } =
        .ok (empty.insert reference.digest reference) space' ∧
      space'.blobsDirectory = space.blobsDirectory ∧ space'.temporaryDirectory = space.temporaryDirectory := by
  have hstage (synchronize : Bool) :
      stage hashes content synchronize { space with outcomes := [] } =
        .ok ⟨reference, false⟩ { space with outcomes := [] } := by
    simp [-bind_pure_comp, stage, stageExisting, lift, touch, touchPartly, hreference, hfile, hdecode, bind_apply,
      EStateM.ofExcept, Except.mapError, Except.failIf]
  rw [commitBlobs_single hreference (hstage _)]
  rcases hstore with hstore | hstore
  all_goals simp [-bind_pure_comp, bind_apply, publishStagedBlob, publish, nextGeneration, hstore, createdSpace, lift,
    Except.mapError, Except.map, Except.okOr, checkedAdd, EStateM.ofExcept, enroll, insertReference, Except.failIf]

end Reuse

namespace TwoCommits

/-- A checksum and a digest that are always zero. -/
def hashes : Hashes := ⟨fun _ _ => 0, fun _ => Digest.zero⟩

/-- One byte more than a row may hold inline. -/
def content : Bytes := List.replicate 8193 0

def insertRow : Mutation :=
  { engine := .relational, opcode := .insertRow, target := none, key := [1], value := content, expiresAtMicros := none }

def request (durability : DurabilityClass) (outcomes : List DiskOutcome) : CommitRequest :=
  { durability, definitions := [], mutations := [insertRow], outcomes, completes := true }

variable {durability : DurabilityClass} {outcomes : List DiskOutcome} {allowed : BlobSpace → CommitRequest → Prop}

theorem length_content : content.length = 8193 := length_replicate

theorem values_request : (request durability outcomes).values = [content] := by
  have hlarge : isLarge insertRow = true := by
    have hlength : content.length > inlineValueLimit := length_content ▸ (by decide)
    exact (Bool.and_true _).trans (decide_eq_true hlength)
  simp only [CommitRequest.values, request, largeValues, filter_nil, nil_append, filter_cons, hlarge, if_true,
    map_cons, map_nil]
  rfl

theorem afterCommit_request (world : World) :
    afterCommit hashes world (request durability outcomes) =
      match commitBlobs hashes durability [content] { world.space with outcomes } with
      | .ok references space =>
        ⟨space, true, if durability ≠ .memory then world.acknowledged ++ references.values else world.acknowledged⟩
      | .error fault space => { world with space, running := fault ≠ .stopped } := by
  rw [afterCommit, values_request]
  simp only [request, true_and]

theorem exists_reference : ∃ reference, referenceFor hashes content = .ok reference :=
  ⟨_, (referenceFor_eq_ok hashes).mpr ⟨length_content ▸ (by decide), rfl⟩⟩

/-- A Strict commit of a row whose file is there without its name on the disk: a crash may leave nothing of it. -/
theorem lost_of_unsynchronized (hreference : referenceFor hashes content = .ok reference)
    (hreached : Reached hashes allowed ⟨space, true, []⟩) (hallowed : allowed space (request .strict []))
    (hdecode : decodeBlob hashes file.bytes = .ok (reference, content))
    (hdirectory : space.blobsDirectory = ⟨empty.insert reference.digest file, empty⟩)
    (hstore : space.store.blobs.get reference.id = some reference ∨ space.store = createdSpace.store)
    (htemporary : space.temporaryDirectory.durable = empty) :
    ∃ world, Reached hashes allowed world ∧ ¬Recoverable hashes world := by
  have hfile : space.blobsDirectory.current.get reference.digest =
    some file := by rw [hdirectory, get_insert, if_pos rfl]
  obtain ⟨space', hcommit, hblobs', htemporary'⟩ := commitBlobs_present hreference hfile hdecode hstore .strict
  have hafter : afterCommit hashes ⟨space, true, []⟩ (request .strict []) = ⟨space', true, [reference]⟩ := by
    simp only [afterCommit_request, hcommit]
    rfl
  refine ⟨_, hafter ▸ hreached.commit _ rfl hallowed, fun hrecoverable => ?_⟩
  have hblobs : space'.blobsDirectory.Survives OrderedMap.empty :=
    ⟨by simp, fun name hname => by simp [hblobs', hdirectory] at hname⟩
  have hnames : space'.temporaryDirectory.Survives OrderedMap.empty :=
    ⟨by simp, fun name hname => by simp [htemporary', htemporary] at hname⟩
  obtain ⟨opened, hopen, hread⟩ := hrecoverable OrderedMap.empty OrderedMap.empty 0 hblobs hnames
  obtain ⟨found, hfound, -⟩ := hread reference mem_cons_self
  obtain rfl := Except.ok.inj hopen
  simp only [read, Except.bind_eq_ok, Except.failIf_eq_ok, not_not, ofImage, get_empty] at hfound
  obtain ⟨_, hget, -⟩ := hfound
  cases hget

end TwoCommits

open TwoCommits in
/-- The row is stored by a Strict commit and then again by a Memory commit. -/
theorem durable_blobs_survive_strict :
    ∃ world, Reached hashes (StoresSafely hashes) world ∧ world.acknowledged ≠ [] ∧ Recoverable hashes world := by
  obtain ⟨reference, hreference⟩ := exists_reference
  obtain ⟨encoded, references, space, hcommit, hvalues, -, hcurrent, hknown, -⟩ :=
    commitBlobs_created hreference .strict
  have hfirst : afterCommit hashes ⟨createdSpace, true, []⟩ (request .strict []) = ⟨space, true, [reference]⟩ := by
    simp [afterCommit_request, show { createdSpace with outcomes := [] } = createdSpace from rfl, hcommit, hvalues]
  have hreached : Reached hashes (StoresSafely hashes) ⟨space, true, [reference]⟩ := by
    refine hfirst ▸ .commit (request .strict []) .created rfl fun value _ =>
      ⟨nofun, fun _ _ => nofun, fun _ _ _ => nofun⟩
  have hsecond : Reached hashes (StoresSafely hashes) (afterCommit hashes ⟨space, true, [reference]⟩
    (request .memory [])) := by
    refine hreached.commit _ rfl ?_
    rw [StoresSafely, values_request, forall_mem_singleton]
    obtain rfl := ((referenceFor_eq_ok hashes).mp hreference).2
    refine ⟨fun _ => by rw [hcurrent, get_insert, if_pos rfl]; rfl, nofun, fun hnone => ?_⟩
    exact absurd (hknown.symm.trans hnone) nofun
  refine ⟨_, hsecond, ?_, durable_blobs_survive hashes hsecond⟩
  unfold afterCommit
  split <;> simp [request]

open TwoCommits in
/-- A Strict commit reuses the file of a Memory commit, or of a Strict commit that failed to synchronize the directory
behind the rename. A crash may leave nothing of it. -/
theorem reused_blob_lost :
    (∃ world, Reached hashes (fun _ request => request.outcomes = []) world ∧ ¬Recoverable hashes world) ∧
      ∃ world, Reached hashes (fun _ request => request.durability = .strict) world ∧ ¬Recoverable hashes world := by
  obtain ⟨reference, hreference⟩ := exists_reference
  constructor
  · obtain ⟨encoded, references, space, hcommit, -, hdecode, hcurrent, hknown, hmemory⟩ :=
      commitBlobs_created hreference .memory
    obtain ⟨hdurable, htemporary⟩ := hmemory rfl
    have hfirst : afterCommit hashes ⟨createdSpace, true, []⟩ (request .memory []) = ⟨space, true, []⟩ := by
      simp [afterCommit_request, show { createdSpace with outcomes := [] } = createdSpace from rfl, hcommit]
    have hdirectory : space.blobsDirectory = ⟨empty.insert reference.digest ⟨encoded, false⟩, empty⟩ :=
      congrArg₂ Directory.mk hcurrent hdurable
    exact lost_of_unsynchronized hreference (hfirst ▸ .commit (request .memory []) .created rfl rfl) rfl hdecode
      hdirectory (.inl hknown) htemporary
  · obtain ⟨encoded, space, hcommit, hdecode, hdirectory, hstore, htemporary⟩ := commitBlobs_unsynchronized hreference
    let failing := request .strict [.done, .done, .done, .done, .failed 0]
    have hfirst : afterCommit hashes ⟨createdSpace, true, []⟩ failing = ⟨space, true, []⟩ := by
      simp [failing, afterCommit_request, hcommit]
    exact lost_of_unsynchronized hreference (hfirst ▸ .commit failing .created rfl rfl) rfl hdecode hdirectory
      (.inr hstore) htemporary

end Hyphae.Blobs
