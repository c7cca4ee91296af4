import Hyphae.Runtime.WalRecovery

/-!
# Logs of transactions

A log is made of what the runtime appends at once: the records of a transaction, the
records of one that stopped before its commit and was closed by an abort, a checkpoint,
an outcome. Recovering such a log, cut behind any record, gives back what is complete
before the cut.
-/

namespace Hyphae.Runtime

open Lib Except List

open Mvcc (ObjectId CatalogVersion csnValue first new_ofLe new_ofLe_csnValue)
open Wal TransactionPlan RecoveredOutcome

variable {mutation : Mutation} {recovered : RecoveredWal}

/-! ## What encoding a transaction establishes -/

/-- A record without flags that holds a body. -/
structure HoldsRecord (record : WalRecord) (kind : RecordKind) (engine : EngineKind) (transactionId : TransactionId)
    (body : Bytes) : Prop where
  kind_eq : record.kind = kind
  engine_eq : record.engine = engine
  flags_eq : record.flags = 0
  transactionId_eq : record.transactionId = transactionId
  body_eq : record.body = body

theorem holdsRecord_of_carries {kind : RecordKind} {engine : EngineKind} {transactionId : TransactionId} {body : Bytes}
    {pending : PendingRecord} {record : WalRecord} (h : pendingRecord kind engine transactionId body = .ok pending)
    (hcarries : record.Carries pending) : HoldsRecord record kind engine transactionId body := by
  unfold pendingRecord PendingRecord.new at h
  rw [mapError_eq_ok] at h
  split at h
  · cases h
    rw [hcarries]
    exact ⟨rfl, rfl, rfl, rfl, rfl⟩
  · cases h

namespace TransactionPlan

/-- Bytes of all mutation bodies. -/
def mutationBytes (plan : TransactionPlan) : Nat := (plan.mutations.map Mutation.bodyLength).sum

/-- The sizes and sequences the encoder checks. -/
structure Encodable (plan : TransactionPlan) : Prop where
  storage : validateStorageState plan.pageGeneration plan.retentionFloorCsn plan.commitCsn = .ok ()
  count : plan.mutations.length < 2 ^ 32
  bounds : validateTransactionBounds plan.mutations.length plan.mutationBytes = .ok ()
  markers : validateAnnDeltaAuthorityMarkers plan.mutations = .ok ()
  body : ∀ mutation ∈ plan.mutations, mutation.bodyLength ≤ walRecordBodySize

/-- The record of a mutation. -/
def MutationRecord (plan : TransactionPlan) (mutation : Mutation) (record : WalRecord) : Prop :=
  HoldsRecord record .mutation mutation.engine plan.transactionId mutation.fields.flatten

end TransactionPlan

theorem Mutation.lengths_lt (h : mutation.bodyLength ≤ walRecordBodySize) :
    mutation.key.length < 2 ^ 32 ∧ mutation.value.length < 2 ^ 32 := by
  simp only [bodyLength, mutationBodyHeaderSize, walRecordBodySize] at h
  omega

theorem foldlM_addBodyLength {mutations : List Mutation} {total result : Nat}
    (h : mutations.foldlM addBodyLength total = .ok result) :
    result = total + (mutations.map Mutation.bodyLength).sum ∧
      ∀ mutation ∈ mutations, mutation.bodyLength ≤ walRecordBodySize := by
  induction mutations generalizing total with
  | nil =>
    cases h
    simp
  | cons mutation mutations ih =>
    rw [foldlM_cons, bind_eq_ok] at h
    obtain ⟨next, hnext, hrest⟩ := h
    unfold addBodyLength at hnext
    simp only [bind_eq_ok, failIf_eq_ok, okOr_eq_ok, checkedAdd_eq_some, Nat.not_lt] at hnext
    obtain ⟨-, -, -, hsize, -, -, -, -, -, rfl⟩ := hnext
    obtain ⟨hresult, hall⟩ := ih hrest
    constructor
    · rw [hresult, map_cons, sum_cons, Nat.add_assoc]
    · exact forall_mem_cons.mpr ⟨hsize, hall⟩

/-- Two lists related to a third one are related to each other. -/
theorem forall₂_through {α β γ : Type} {R : α → β → Prop} {S : γ → β → Prop} {T : α → γ → Prop} {as : List α}
    {bs : List β} {cs : List γ} (hr : List.Forall₂ R as bs) (hs : List.Forall₂ S cs bs)
    (h : ∀ a b c, R a b → S c b → T a c) : List.Forall₂ T as cs := by
  induction hr generalizing cs with
  | nil =>
    cases hs
    exact .nil
  | cons hab _ ih =>
    cases hs with
    | cons hcb hrest => exact .cons (h _ _ _ hab hcb) (ih hrest)

/-- Records that hold the plan. -/
structure TransactionPlan.HeldBy (plan : TransactionPlan) (hashes : Hashes) (start : WalRecord) (body : List WalRecord)
    (commit : WalRecord) : Prop where
  start : HoldsRecord start .begin .kernel plan.transactionId (plan.start plan.mutationBytes).encode
  body : List.Forall₂ plan.MutationRecord plan.mutations body
  commit : HoldsRecord commit .commit .kernel plan.transactionId
    (plan.manifest plan.mutationBytes (hashes.blake3 (digestedMutations plan.mutations))).encode

/-- Encoding succeeds only on a plan within all bounds, and its records hold the plan. -/
theorem encodeTransaction_spec {hashes : Hashes} {plan : TransactionPlan} {pending : List PendingRecord}
    (h : encodeTransaction hashes plan = .ok pending) :
    plan.Encodable ∧ ∀ records, List.Forall₂ WalRecord.Carries records pending →
      ∃ start body commit, records = start :: (body ++ [commit]) ∧ plan.HeldBy hashes start body commit := by
  unfold encodeTransaction at h
  simp only [bind_eq_ok, failIf_eq_ok, Nat.not_le] at h
  obtain ⟨⟨⟩, hstorage, ⟨⟩, hcount, total, htotal, ⟨⟩, hbounds, ⟨⟩, hmarkers, encoded, hencoded, digest, hdigest, start,
    hstart, mutations, hmutations, commit, hcommit, hpending⟩ := h
  obtain ⟨hsum, hbody⟩ := foldlM_addBodyLength htotal
  have hbytes : total = plan.mutationBytes := by rw [hsum, Nat.zero_add]; rfl
  subst hbytes
  have hbodies : encoded = plan.mutations.map fun mutation => mutation.fields.flatten := by
    have hok : plan.mutations.mapM Mutation.encode =
        .ok (plan.mutations.map fun mutation => mutation.fields.flatten) := by
      apply mapM_eq_ok
      intro mutation hmutation
      have hsize := hbody mutation hmutation
      obtain ⟨hkey, hvalue⟩ := mutation.lengths_lt hsize
      have htotal : mutation.bodyLength < 2 ^ 64 := by
        simp only [walRecordBodySize] at hsize
        omega
      rw [Mutation.encode, failIf_bind (by omega), failIf_bind (by omega), failIf_bind (by omega)]
    rw [hok] at hencoded
    exact (ok.inj hencoded).symm
  subst hbodies
  have hhash : digest = hashes.blake3 (digestedMutations plan.mutations) := by
    unfold mutationDigest at hdigest
    simp only [bind_eq_ok, ok.injEq] at hdigest
    obtain ⟨-, -, rfl⟩ := hdigest
    rw [zip_map', digestedMutations, flatMap_map]
  subst hhash
  refine ⟨⟨hstorage, hcount, hbounds, hmarkers, hbody⟩, ?_⟩
  intro records hcarries
  obtain rfl := ok.inj hpending
  rw [append_assoc, singleton_append, forall₂_cons_right_iff] at hcarries
  obtain ⟨first, rest, hfirst, hrest, rfl⟩ := hcarries
  have hbodyCarries := forall₂_take_append _ _ _ hrest
  have hlast := forall₂_drop_append _ _ _ hrest
  rw [forall₂_cons_right_iff] at hlast
  obtain ⟨last, none, hlast, hnone, hdrop⟩ := hlast
  rw [forall₂_nil_right_iff] at hnone
  subst hnone
  refine ⟨first, rest.take mutations.length, last, ?_, holdsRecord_of_carries hstart hfirst, ?_,
    holdsRecord_of_carries hcommit hlast⟩
  · rw [← hdrop, take_append_drop]
  · have hrecords := forall₂_of_mapM_eq_ok hmutations
    rw [← map_prod_left_eq_zip, forall₂_map_left_iff] at hrecords
    exact forall₂_through hrecords hbodyCarries fun _ _ _ hpending => holdsRecord_of_carries hpending

/-! ## One record at a time -/

namespace TransactionPlan

/-- The open transaction behind its first mutations. -/
def active (plan : TransactionPlan) (seen : List Mutation) : ActiveTransaction where
  transactionId := plan.transactionId
  start := plan.start plan.mutationBytes
  mutations := seen
  mutationBytes := (seen.map Mutation.bodyLength).sum
  hashed := digestedMutations seen

end TransactionPlan

section Records

variable {hashes : Hashes} {base : Option WalSemanticBase} {plan : TransactionPlan} {record : WalRecord}

theorem TransactionPlan.Encodable.limits (h : plan.Encodable) :
    plan.mutations ≠ [] ∧ plan.mutations.length ≤ maxTransactionMutations ∧
      plan.mutationBytes ≤ maxTransactionMutationBytes := by
  have hbounds := h.bounds
  unfold validateTransactionBounds at hbounds
  simp only [bind_eq_ok, failIf_eq_ok, not_or, Nat.not_lt] at hbounds
  obtain ⟨_, -, _, -, _, -, hcount, hmax, -, -, hbytes, -⟩ := hbounds
  exact ⟨fun hnil => hcount (by rw [hnil]; rfl), hmax, hbytes⟩

theorem TransactionPlan.Encodable.bytes_lt (h : plan.Encodable) : plan.mutationBytes < 2 ^ 64 :=
  h.limits.2.2.trans_lt (by decide)

theorem recoverRecord_begin (hplan : plan.Encodable)
    (h : HoldsRecord record .begin .kernel plan.transactionId (plan.start plan.mutationBytes).encode) :
    recoverRecord hashes base (recovered, none) record = .ok (recovered, some (plan.active [])) := by
  have hstart : Begin.decode (plan.start plan.mutationBytes).encode = .ok (plan.start plan.mutationBytes) :=
    Begin.decode_encode hplan.count hplan.bytes_lt hplan.bounds
  rw [recoverRecord, h.kind_eq]
  simp only [recoverBegin, h.engine_eq, h.body_eq, h.transactionId_eq, hstart]
  rw [failIf_bind (by simp), ok_bind]
  simp [active, digestedMutations]

theorem recoverRecord_mutation (hplan : plan.Encodable) {seen : List Mutation}
    (hseen : seen ++ [mutation] <+: plan.mutations) (hrecoverable : mutation.Recoverable)
    (h : plan.MutationRecord mutation record) :
    recoverRecord hashes base (recovered, some (plan.active seen)) record =
      .ok (recovered, some (plan.active (seen ++ [mutation]))) := by
  have hmem : mutation ∈ plan.mutations := hseen.subset (by simp)
  have hsize := hplan.body mutation hmem
  obtain ⟨hkey, hvalue⟩ := mutation.lengths_lt hsize
  have hlength : seen.length + 1 ≤ plan.mutations.length := by simpa using hseen.length_le
  have hbytes : (seen.map Mutation.bodyLength).sum + mutation.bodyLength ≤ plan.mutationBytes := by
    obtain ⟨rest, hrest⟩ := hseen
    rw [mutationBytes, ← hrest]
    simp
  obtain ⟨-, hcount, hmax⟩ := hplan.limits
  have hsmall : mutation.bodyLength < 2 ^ 32 := by
    simp only [walRecordBodySize] at hsize
    omega
  have hfits : (seen.map Mutation.bodyLength).sum + mutation.bodyLength < 2 ^ 64 := hbytes.trans_lt hplan.bytes_lt
  have hadmit : (plan.active seen).admitMutationBody mutation.engine mutation.fields.flatten =
      .ok { plan.active (seen ++ [mutation]) with mutations := seen } := by
    have hadd : checkedAdd (plan.active seen).mutationBytes mutation.bodyLength =
        some ((seen.map Mutation.bodyLength).sum + mutation.bodyLength) := checkedAdd_eq_some.mpr ⟨hfits, rfl⟩
    unfold ActiveTransaction.admitMutationBody
    simp only [mutation.length_fields, hadd, okOr, ok_bind]
    rw [failIf_of_not, ok_bind, failIf_bind (by omega)]
    · simp [active, digestedMutations]
    · simp only [active, start]
      omega
  rw [recoverRecord, h.kind_eq]
  simp only [recoverMutation, okOr, ok_bind, h.transactionId_eq, h.engine_eq, h.body_eq, hadmit,
    decodeMutation_of_recoverable hrecoverable hkey hvalue]
  rw [failIf_bind (by simp [active])]
  rfl

/-- A mutation record is read only when its mutation may be decoded. -/
theorem recoverable_of_recoverRecord (hplan : plan.Encodable) (hmem : mutation ∈ plan.mutations)
    (h : plan.MutationRecord mutation record) {state state' : RecoveryState}
    (hstep : recoverRecord hashes base state record = .ok state') : mutation.Recoverable := by
  obtain ⟨hkey, hvalue⟩ := mutation.lengths_lt (hplan.body mutation hmem)
  rw [recoverRecord, h.kind_eq] at hstep
  simp only [recoverMutation, bind_eq_ok, h.engine_eq, h.body_eq] at hstep
  obtain ⟨_, -, _, -, _, -, decoded, hdecoded, -⟩ := hstep
  exact recoverable_of_decodeMutation hkey hvalue hdecoded

/-- What recovery keeps of a committed plan. -/
def TransactionPlan.recoveredCommit (plan : TransactionPlan) (hashes : Hashes) (commitLsn : Lsn) : RecoveredCommit where
  transactionId := plan.transactionId
  commitLsn := commitLsn
  durability := plan.durability
  manifest := plan.manifest plan.mutationBytes (hashes.blake3 (digestedMutations plan.mutations))
  mutations := plan.mutations

theorem recoverRecord_commit (hplan : plan.Encodable)
    (hlast : ∀ prior ∈ recovered.commits.getLast?, prior.manifest.commitCsn < plan.commitCsn)
    (h : HoldsRecord record .commit .kernel plan.transactionId
      (plan.manifest plan.mutationBytes (hashes.blake3 (digestedMutations plan.mutations))).encode) :
    recoverRecord hashes base (recovered, some (plan.active plan.mutations)) record =
      .ok ({ recovered with commits := recovered.commits ++ [plan.recoveredCommit hashes record.lsn] }, none) := by
  have hmanifest : CommitManifest.decode
      (plan.manifest plan.mutationBytes (hashes.blake3 (digestedMutations plan.mutations))).encode = .ok _ :=
    CommitManifest.decode_encode hplan.count hplan.bytes_lt hplan.storage
  have hvalid : (plan.active plan.mutations).validate hashes
      (plan.manifest plan.mutationBytes (hashes.blake3 (digestedMutations plan.mutations))) = .ok () := by
    unfold ActiveTransaction.validate
    rw [failIf_bind (by simpa [active] using hplan.limits.1)]
    have hmarkers : validateAnnDeltaAuthorityMarkers (plan.active plan.mutations).mutations = .ok () := hplan.markers
    rw [hmarkers, ok_bind, failIf_bind (by simpa [active] using hplan.count), failIf_of_not]
    simp [active, start, manifest, mutationBytes]
  rw [recoverRecord, h.kind_eq]
  simp only [recoverCommit, okOr, ok_bind, h.transactionId_eq, h.engine_eq, h.body_eq, hmanifest, hvalid]
  rw [failIf_bind (by simp [active]), failIf_of_not, ok_bind]
  · rfl
  · simp only [Option.any_eq_true, decide_eq_true_eq, not_exists, not_and, not_le]
    exact hlast

theorem recoverRecord_abort {active : ActiveTransaction}
    (h : HoldsRecord record .abort .kernel active.transactionId abortMagic) :
    recoverRecord hashes base (recovered, some active) record = .ok (recovered, none) := by
  rw [recoverRecord, h.kind_eq]
  simp only [recoverAbort, okOr, ok_bind, h.transactionId_eq, h.engine_eq, h.body_eq]
  rw [failIf_bind (by simp)]

theorem decodeCheckpoint_of_holds {checkpoint : RecoveredCheckpoint} (hdigest : checkpoint.manifestDigest ≠ Digest.zero)
    (hlsn : record.lsn = checkpoint.checkpointLsn)
    (h : HoldsRecord record .checkpoint .kernel checkpoint.transactionId checkpoint.fields.flatten) :
    decodeCheckpoint record = .ok checkpoint := by
  have hsize := checkpoint.manifestDigest.size
  have hlength : checkpoint.fields.flatten.length = 64 := by
    simp [RecoveredCheckpoint.fields, checkpointMagic, hsize]
  obtain ⟨hmagic, hvisible, hgeneration, hbytes, hprevious, -⟩ :=
    fieldsAt (Eq.refl checkpoint.fields.flatten) [0, 8, 16, 24, 56, 64]
      (by simp [RecoveredCheckpoint.fields, checkpointMagic, hsize])
  unfold decodeCheckpoint
  simp only [h.body_eq, h.transactionId_eq, hlsn, hlength, hmagic, hvisible, hgeneration, hbytes, hprevious,
    readDigest_bytes, new_ofLe (show 2 ^ 64 = 256 ^ 8 by norm_num), new_ofLe_csnValue]
  rw [failIf_bind (by simp)]
  simp only [okOr, ok_bind]
  rw [failIf_bind hdigest]

theorem decodeOutcome_of_holds {outcome : RecoveredOutcome} (hprincipal : outcome.principalHash ≠ Digest.zero)
    (htoken : outcome.idempotencyToken ≠ Digest.zero) (hstate : outcome.StateAgrees)
    (h : HoldsRecord record .catalog .kernel outcome.runtimeTransactionId outcome.fields.flatten) :
    decodeOutcome record = .ok outcome := by
  have hsize := outcome.principalHash.size
  have hsize' := outcome.idempotencyToken.size
  have hlength : outcome.fields.flatten.length = outcomeBodySize := by
    simp [fields, outcomeMagic, hsize, hsize', outcomeBodySize]
  obtain ⟨hmagic, hcode, hzero, hresolution, hruntime, hprincipalBytes, htokenBytes, hcommit, -⟩ :=
    fieldsAt (Eq.refl outcome.fields.flatten) [0, 8, 9, 16, 32, 48, 80, 112, 120]
      (by simp [fields, outcomeMagic, hsize, hsize'])
  have hcode := getD_of_slice hcode
  unfold decodeOutcome
  simp only [h.body_eq, hlength, hmagic, hcode, hzero, hresolution, hruntime, hprincipalBytes, htokenBytes, hcommit,
    readDigest_bytes, new_ofLe (show 2 ^ 128 = 256 ^ 16 by norm_num), new_ofLe_csnValue]
  rw [failIf_bind (by simp [zeros]), failIf_bind (not_not.mpr hstate.1)]
  simp only [okOr, ok_bind]
  rw [failIf_bind (by simp [hprincipal, htoken]), failIf_bind (not_not.mpr hstate.2)]

end Records

/-! ## What the runtime appends -/

/-- A transaction and the records it has in a log. -/
structure LoggedTransaction (hashes : Hashes) where
  plan : TransactionPlan
  pending : List PendingRecord
  encoded : encodeTransaction hashes plan = .ok pending
  start : WalRecord
  body : List WalRecord
  commit : WalRecord
  carries : List.Forall₂ WalRecord.Carries (start :: (body ++ [commit])) pending

/-- A record that holds a pending one. -/
def Carried (pending : SemanticM PendingRecord) (record : WalRecord) : Prop :=
  ∃ p, pending = .ok p ∧ record.Carries p

/-- What is appended at once. A transaction that was cut short left its first mutations and was closed by an abort. -/
inductive Entry (hashes : Hashes)
  | transaction (logged : LoggedTransaction hashes)
  | aborted (logged : LoggedTransaction hashes) (written : Nat) (abort : WalRecord)
    (carried : Carried (encodeAbort logged.plan.transactionId) abort)
  | checkpoint (checkpoint : RecoveredCheckpoint) (record : WalRecord)
    (carried : Carried (encodeCheckpoint checkpoint) record) (placed : record.lsn = checkpoint.checkpointLsn)
  | outcome (outcome : RecoveredOutcome) (record : WalRecord) (carried : Carried (encodeOutcome outcome) record)

namespace Entry

variable {hashes : Hashes}

def records : Entry hashes → List WalRecord
  | .transaction logged => logged.start :: (logged.body ++ [logged.commit])
  | .aborted logged written abort _ => logged.start :: (logged.body.take written ++ [abort])
  | .checkpoint _ record _ _ => [record]
  | .outcome _ record _ => [record]

/-- The transaction that is open behind the first records of the entry. -/
def transactionId : Entry hashes → TransactionId
  | .transaction logged => logged.plan.transactionId
  | .aborted logged _ _ _ => logged.plan.transactionId
  | .checkpoint taken _ _ _ => taken.transactionId
  | .outcome reached _ _ => reached.runtimeTransactionId

/-- The mutations that have a record. -/
def mutations : Entry hashes → List Mutation
  | .transaction logged => logged.plan.mutations
  | .aborted logged written _ _ => logged.plan.mutations.take written
  | _ => []

/-- What the entry adds to what has been recovered. -/
def apply (recovered : RecoveredWal) : Entry hashes → RecoveredWal
  | .transaction logged =>
    { recovered with commits := recovered.commits ++ [logged.plan.recoveredCommit hashes logged.commit.lsn] }
  | .aborted _ _ _ _ => recovered
  | .checkpoint taken _ _ _ => { recovered with checkpoints := recovered.checkpoints ++ [taken] }
  | .outcome reached _ _ => { recovered with outcomes := putOutcome reached recovered.outcomes }

/-- The entry keeps the order of the log: sequences grow, a checkpoint names a recovered sequence and the checkpoint
before it, an outcome reserves for a new caller or resolves a reservation. -/
def Follows (base : Option WalSemanticBase) (recovered : RecoveredWal) : Entry hashes → Prop
  | .transaction logged => ∀ prior ∈ recovered.commits.getLast?, prior.manifest.commitCsn < logged.plan.commitCsn
  | .aborted _ _ _ _ => True
  | .checkpoint taken _ _ _ => taken.manifestDigest ≠ Digest.zero ∧ ¬recovered.refusesCheckpoint base taken
  | .outcome reached _ _ =>
    reached.principalHash ≠ Digest.zero ∧ reached.idempotencyToken ≠ Digest.zero ∧ ¬recovered.refusesOutcome reached

end Entry

section Log

variable {hashes : Hashes} (base : Option WalSemanticBase)

variable {log : List (Entry hashes)} {entry : Entry hashes}

/-- Every entry keeps the order of the log. -/
def InOrder (recovered : RecoveredWal) : List (Entry hashes) → Prop
  | [] => True
  | entry :: log => entry.Follows base recovered ∧ InOrder (entry.apply recovered) log

def logRecords (log : List (Entry hashes)) : List WalRecord := log.flatMap Entry.records

/-- The mutations that have a record in the log. -/
def logMutations (log : List (Entry hashes)) : List Mutation := log.flatMap Entry.mutations

/-- What the entries of a log leave to be recovered. -/
def expectedFrom (recovered : RecoveredWal) (log : List (Entry hashes)) : RecoveredWal :=
    log.foldl Entry.apply recovered

/-- The entries whose records all stand before the cut. -/
def completeBefore : List (Entry hashes) → Nat → List (Entry hashes)
  | [], _ => []
  | entry :: log, cut =>
    if entry.records.length ≤ cut then entry :: completeBefore log (cut - entry.records.length) else []

/-- The transaction the cut falls into. -/
def danglingAt : List (Entry hashes) → Nat → Option TransactionId
  | [], _ => none
  | entry :: log, cut =>
    if entry.records.length ≤ cut then danglingAt log (cut - entry.records.length)
    else if cut = 0 then none
    else some entry.transactionId

variable {base}

/-- The records of mutations move the open transaction along. -/
theorem foldlM_mutations {plan : TransactionPlan} (hplan : plan.Encodable) {seen rest : List Mutation}
    {body : List WalRecord} (hseen : seen ++ rest <+: plan.mutations) (hrest : ∀ mutation ∈ rest, mutation.Recoverable)
    (hbody : List.Forall₂ plan.MutationRecord rest body) :
    body.foldlM (recoverRecord hashes base) (recovered, some (plan.active seen)) =
      .ok (recovered, some (plan.active (seen ++ rest))) := by
  induction hbody generalizing seen with
  | nil => simp
  | @cons mutation record rest body hrecord _ ih =>
    obtain ⟨hmutation, hrest⟩ := forall_mem_cons.mp hrest
    have hassoc : seen ++ mutation :: rest = seen ++ [mutation] ++ rest := by simp
    rw [hassoc] at hseen ⊢
    rw [foldlM_cons, recoverRecord_mutation hplan ((prefix_append _ _).trans hseen) hmutation hrecord, ok_bind]
    exact ih hseen hrest

/-- The records of a logged transaction hold its plan. -/
theorem LoggedTransaction.holds (logged : LoggedTransaction hashes) :
    logged.plan.HeldBy hashes logged.start logged.body logged.commit := by
  obtain ⟨start, body, commit, heq, hholds⟩ := (encodeTransaction_spec logged.encoded).2 _ logged.carries
  obtain ⟨hfirst, hrest⟩ := cons.inj heq
  obtain ⟨hmiddle, hlast⟩ := append_inj' hrest rfl
  obtain ⟨hlast, -⟩ := cons.inj hlast
  rwa [hfirst, hmiddle, hlast]

/-- A transaction without its commit leaves itself open. -/
theorem LoggedTransaction.foldlM_open (logged : LoggedTransaction hashes) (recovered : RecoveredWal) (written : Nat)
    (h : ∀ mutation ∈ logged.plan.mutations.take written, mutation.Recoverable) :
    (logged.start :: logged.body.take written).foldlM (recoverRecord hashes base) (recovered, none) =
      .ok (recovered, some (logged.plan.active (logged.plan.mutations.take written))) := by
  have hplan := (encodeTransaction_spec logged.encoded).1
  obtain ⟨hstart, hbody, -⟩ := logged.holds
  have hmutations : (logged.body.take written).foldlM (recoverRecord hashes base)
      (recovered, some (logged.plan.active [])) =
        .ok (recovered, some (logged.plan.active ([] ++ logged.plan.mutations.take written))) := by
    refine foldlM_mutations hplan ?_ h (forall₂_take written hbody)
    exact take_prefix _ _
  rw [foldlM_cons, recoverRecord_begin hplan hstart, ok_bind, hmutations, nil_append]

/-- All records of an entry turn what was recovered before it into what is recovered behind it. -/
theorem Entry.foldlM_records (hfollows : entry.Follows base recovered)
    (h : ∀ mutation ∈ entry.mutations, mutation.Recoverable) :
    entry.records.foldlM (recoverRecord hashes base) (recovered, none) = .ok (entry.apply recovered, none) := by
  cases entry with
  | transaction logged =>
    have hplan := (encodeTransaction_spec logged.encoded).1
    obtain ⟨-, hbody, hcommit⟩ := logged.holds
    have hall : ∀ mutation ∈ logged.plan.mutations.take logged.body.length, mutation.Recoverable :=
      fun mutation hmutation => h mutation (mem_of_mem_take hmutation)
    have hopen : (logged.start :: logged.body.take logged.body.length).foldlM (recoverRecord hashes base)
        (recovered, none) = .ok _ := logged.foldlM_open recovered logged.body.length hall
    rw [take_length, ← hbody.length_eq, take_length] at hopen
    rw [records, ← cons_append, foldlM_append, hopen, ok_bind, foldlM_cons, recoverRecord_commit hplan hfollows hcommit]
    rfl
  | aborted logged written abort carried =>
    obtain ⟨pending, hpending, hcarries⟩ := id carried
    have habort : HoldsRecord abort .abort .kernel
        (logged.plan.active (logged.plan.mutations.take written)).transactionId abortMagic :=
      holdsRecord_of_carries hpending hcarries
    rw [records, ← cons_append, foldlM_append, logged.foldlM_open recovered written h, ok_bind,
      foldlM_cons, recoverRecord_abort habort]
    rfl
  | checkpoint taken record carried placed =>
    obtain ⟨hdigest, haccepted⟩ := hfollows
    obtain ⟨pending, hpending, hcarries⟩ := id carried
    have hrecord := holdsRecord_of_carries hpending hcarries
    rw [records, foldlM_cons, recoverRecord, hrecord.kind_eq]
    simp only [recoverCheckpoint, hrecord.engine_eq, hrecord.flags_eq, decodeCheckpoint_of_holds hdigest placed hrecord]
    rw [failIf_bind (by simp), ok_bind, failIf_of_not haccepted]
    rfl
  | outcome reached record carried =>
    obtain ⟨hprincipal, htoken, haccepted⟩ := hfollows
    obtain ⟨pending, hpending, hcarries⟩ := id carried
    simp only [encodeOutcome, bind_eq_ok, failIf_eq_ok, not_not] at hpending
    obtain ⟨-, hstate, hpending⟩ := hpending
    have hrecord := holdsRecord_of_carries hpending hcarries
    rw [records, foldlM_cons, recoverRecord, hrecord.kind_eq]
    simp only [recoverOutcome, hrecord.engine_eq, hrecord.flags_eq, hrecord.transactionId_eq,
      decodeOutcome_of_holds hprincipal htoken hstate hrecord]
    rw [failIf_bind (by simp), ok_bind, failIf_of_not (by simp [haccepted])]
    rfl

/-- Some but not all records of an entry leave its transaction open. -/
theorem Entry.foldlM_take (recovered : RecoveredWal) {cut : Nat} (hpos : cut ≠ 0) (hcut : cut < entry.records.length)
    (h : ∀ mutation ∈ entry.mutations, mutation.Recoverable) :
    ∃ active, (entry.records.take cut).foldlM (recoverRecord hashes base) (recovered, none) =
      .ok (recovered, some active) ∧ active.transactionId = entry.transactionId := by
  obtain ⟨written, rfl⟩ := Nat.exists_eq_succ_of_ne_zero hpos
  cases entry with
  | transaction logged =>
    have hwritten : written ≤ logged.body.length := by
      simp only [records, length_cons, length_append, length_nil] at hcut
      omega
    refine ⟨logged.plan.active (logged.plan.mutations.take written), ?_, rfl⟩
    rw [records, take_succ_cons, take_append_of_le_length hwritten]
    exact logged.foldlM_open recovered written fun mutation hmutation => h mutation (mem_of_mem_take hmutation)
  | aborted logged most abort carried =>
    have hwritten : written ≤ (logged.body.take most).length := by
      simp only [records, length_cons, length_append, length_nil] at hcut
      omega
    have hmost : written ≤ most := hwritten.trans (length_take_le _ _)
    refine ⟨logged.plan.active (logged.plan.mutations.take written), ?_, rfl⟩
    rw [records, take_succ_cons, take_append_of_le_length hwritten, take_take, Nat.min_eq_left hmost]
    apply logged.foldlM_open recovered written
    intro mutation hmutation
    apply h mutation
    rw [← Nat.min_eq_left hmost, ← take_take] at hmutation
    exact mem_of_mem_take hmutation
  | checkpoint | outcome =>
    simp [records] at hcut

/-- What recovery has behind a cut: everything complete before it, and the transaction it falls into. -/
theorem foldlM_take_logRecords (horder : InOrder base recovered log)
    (h : ∀ mutation ∈ logMutations log, mutation.Recoverable) (cut : Nat) :
    ∃ active, ((logRecords log).take cut).foldlM (recoverRecord hashes base) (recovered, none) =
        .ok (expectedFrom recovered (completeBefore log cut), active) ∧
      active.map ActiveTransaction.transactionId = danglingAt log cut := by
  induction log generalizing recovered cut with
  | nil =>
    refine ⟨none, ?_, rfl⟩
    simp [logRecords, completeBefore, expectedFrom]
  | cons entry log ih =>
    obtain ⟨hfollows, horder⟩ := horder
    rw [logMutations, flatMap_cons, forall_mem_append] at h
    rw [logRecords, flatMap_cons, completeBefore, danglingAt]
    by_cases hcut : entry.records.length ≤ cut
    · -- the entry is complete, the cut is in the rest of the log
      obtain ⟨active, hrest, hactive⟩ := ih horder h.2 (cut - entry.records.length)
      refine ⟨active, ?_, by rw [if_pos hcut, hactive]⟩
      rw [if_pos hcut, take_append, take_of_length_le hcut, foldlM_append, Entry.foldlM_records hfollows h.1, ok_bind]
      exact hrest
    · rw [if_neg hcut, if_neg hcut, take_append_of_le_length (Nat.le_of_not_le hcut)]
      by_cases hzero : cut = 0
      · subst hzero
        exact ⟨none, by simp [expectedFrom], by simp⟩
      · have hpart : ∃ active, (entry.records.take cut).foldlM (recoverRecord hashes base) (recovered, none) =
            .ok (recovered, some active) ∧ active.transactionId = entry.transactionId :=
          Entry.foldlM_take recovered hzero (Nat.lt_of_not_le hcut) h.1
        obtain ⟨active, hopen, hactive⟩ := hpart
        exact ⟨some active, hopen, by rw [if_neg hzero, Option.map_some, hactive]⟩

/-- Recovery of the log cut behind `cut` records: exactly what is complete before the cut, the transaction the cut falls
into as dangling, and an abort record closes that one. -/
def RecoversCut (base : Option WalSemanticBase) (log : List (Entry hashes)) (cut : Nat) : Prop :=
  recoverWalAfter hashes base ((logRecords log).take cut) =
    .ok { expectedFrom {} (completeBefore log cut) with danglingTransaction := danglingAt log cut } ∧
  ∀ transactionId ∈ danglingAt log cut, ∀ record, Carried (encodeAbort transactionId) record →
    recoverWalAfter hashes base ((logRecords log).take cut ++ [record]) =
      .ok { expectedFrom {} (completeBefore log cut) with danglingTransaction := none }

/-- A log of mutations that may be decoded is recovered at every cut. -/
theorem recoversCut_of_recoverable (horder : InOrder base {} log)
    (h : ∀ mutation ∈ logMutations log, mutation.Recoverable) (cut : Nat) : RecoversCut base log cut := by
  obtain ⟨active, hfold, hactive⟩ := foldlM_take_logRecords horder h cut
  constructor
  · rw [recoverWalAfter, hfold, ok_bind, ← hactive]
  · intro transactionId hdangling record hcarried
    rw [← hactive] at hdangling
    obtain ⟨transaction, rfl, rfl⟩ := Option.map_eq_some_iff.mp hdangling
    obtain ⟨pending, hpending, hcarries⟩ := hcarried
    have habort : HoldsRecord record .abort .kernel transaction.transactionId abortMagic :=
      holdsRecord_of_carries hpending hcarries
    rw [recoverWalAfter, foldlM_append, hfold, ok_bind, foldlM_cons, recoverRecord_abort habort]
    rfl

/-- A log that is recovered as a whole has only mutations that may be decoded. -/
theorem recoverable_of_recoverWalAfter (h : recoverWalAfter hashes base (logRecords log) = .ok recovered) :
    ∀ mutation ∈ logMutations log, mutation.Recoverable := by
  intro mutation hmutation
  obtain ⟨entry, hentry, hmutation⟩ := mem_flatMap.mp hmutation
  rw [recoverWalAfter, bind_eq_ok] at h
  obtain ⟨state, hfold, -⟩ := h
  -- some record of the entry holds the mutation, and recovery has stepped over that record
  have hrecord : ∃ logged : LoggedTransaction hashes, mutation ∈ logged.plan.mutations ∧
      ∃ record ∈ entry.records, logged.plan.MutationRecord mutation record := by
    cases entry with
    | transaction logged =>
      obtain ⟨record, hrecord, hholds⟩ := exists_of_forall₂ logged.holds.body hmutation
      exact ⟨logged, hmutation, record, by simp [Entry.records, hrecord], hholds⟩
    | aborted logged written abort carried =>
      obtain ⟨record, hrecord, hholds⟩ := exists_of_forall₂ (forall₂_take written logged.holds.body) hmutation
      exact ⟨logged, mem_of_mem_take hmutation, record, by simp [Entry.records, hrecord], hholds⟩
    | checkpoint | outcome => cases hmutation
  obtain ⟨logged, hmem, record, hrecord, hholds⟩ := hrecord
  have hinLog : record ∈ logRecords log := mem_flatMap.mpr ⟨entry, hentry, hrecord⟩
  obtain ⟨before, after, hstep⟩ := step_of_foldlM_eq_ok hfold record hinLog
  exact recoverable_of_recoverRecord (encodeTransaction_spec logged.encoded).1 hmem hholds hstep

end Log

end Hyphae.Runtime
