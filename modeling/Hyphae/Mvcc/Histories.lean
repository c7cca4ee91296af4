import Hyphae.Mvcc.Coordinator
import Hyphae.Wal.History

/-!
# Histories of the coordinators

A world is any number of coordinators, created fresh or restored from a root set, and
the snapshots taken from them. A history is any interleaving of calls. In every state
it reaches the next sequence is the one behind the visible commit, and every call
either leaves what is visible alone or moves it forward by the commits it publishes.
-/

namespace Hyphae.Mvcc

open Lib List Option Except

open RootGroupTransaction CommitCoordinator RootSet RootTransaction

open Wal (Hashes)

variable {hashes : Hashes}

variable {root : RootSet hashes} {group : RootGroupTransaction hashes} {nextCsn next : Nat} {walAnchor : WalAnchor}
  {coordinator : CommitCoordinator hashes} {transaction : RootTransaction hashes} {catalogVersion : CatalogVersion}

namespace RootSet

def visible (root : RootSet hashes) : Nat := csnValue root.visibleCsn

def floor (root : RootSet hashes) : Nat := csnValue root.retentionFloorCsn

end RootSet

/-! ## One coordinator -/

/-- The next sequence is the one behind the visible commit, or the sequences are exhausted. -/
def Sequenced (coordinator : CommitCoordinator hashes) : Prop :=
  (coordinator.nextCsn = coordinator.current.visible + 1 ∧ coordinator.nextCsn < 2 ^ 64) ∨
    (coordinator.nextCsn = 0 ∧ coordinator.current.visible + 1 = 2 ^ 64)

/-- `after` is visible `count` commits behind `before`: the floor only rises, and the page generation moves by one at
most, and then to a floor at the commit. -/
structure Advances (before after : RootSet hashes) (count : Nat) : Prop where
  visible : after.visible = before.visible + count
  floor : before.floor ≤ after.floor
  storage : after.pageGeneration = before.pageGeneration ∨
    (after.pageGeneration.get = before.pageGeneration.get + 1 ∧ after.retentionFloorCsn = after.visibleCsn)

/-- A root set of a private chain, `count` commits behind the one the chain starts at. -/
structure Staged (before after : RootSet hashes) (count : Nat) : Prop where
  visible : after.visible = before.visible + count
  floor : after.floor = if before.visibleCsn = none then 1 else before.floor
  generation : after.pageGeneration = before.pageGeneration

/-- The writer works on what is visible. -/
def Grounded (coordinator : CommitCoordinator hashes) : Prop :=
  match coordinator.writer with
  | none => True
  | some (.single transaction) => transaction.base = coordinator.current ∧ coordinator.nextCsn ≠ 0
  | some (.group group) => group.initial = coordinator.current ∧ coordinator.nextCsn ≠ 0 ∧
      ∀ i root, group.staged[i]? = some root → Staged coordinator.current root (i + 1)

structure Inv (coordinator : CommitCoordinator hashes) : Prop where
  sequenced : Sequenced coordinator
  grounded : Grounded coordinator

/-- What a call does to what is visible. -/
def Effect (coordinator : CommitCoordinator hashes) (op : CommitCoordinator.Op) (result : MvccM Unit)
    (after : CommitCoordinator hashes) : Prop :=
  match op, result with
  | .commit _ _, .ok _ => Advances coordinator.current after.current 1
  | .publish, .ok _ => ∃ group, coordinator.writer = some (.group group) ∧
      Advances coordinator.current after.current group.staged.length ∧
      after.current.pageGeneration = coordinator.current.pageGeneration
  | _, _ => after.current = coordinator.current ∧ after.nextCsn = coordinator.nextCsn

theorem RootSet.visible_pos : 0 < root.visible ↔ root.visibleCsn ≠ none := by
  rw [visible, csnValue_pos, isSome_iff_ne_none]

/-- The floor a commit inherits, or its own sequence before the first commit. -/
theorem RootSet.inherited_floor (root : RootSet hashes) (commitCsn : Csn) :
    csnValue (some (root.retentionFloorCsn.getD commitCsn)) =
      if root.visibleCsn = none then commitCsn.get else root.floor := by
  have hsome := root.floor_isSome
  unfold floor
  cases hfloor : root.retentionFloorCsn <;> cases hvisible : root.visibleCsn <;> rw [hfloor, hvisible] at hsome <;>
    first | rfl | cases hsome

/-- A private chain that ends in a staged root set keeps what was visible before it. -/
theorem Staged.advances {before after : RootSet hashes} {count : Nat} (h : Staged before after count) :
    Advances before after count := by
  refine ⟨h.visible, ?_, .inl h.generation⟩
  rw [h.floor]
  split
  · rename_i hnone
    have hle := before.floor_le
    rw [hnone, csnValue_none] at hle
    exact hle.trans (Nat.zero_le 1)
  · exact Nat.le_refl _

/-- The base of the next commit of a private chain. -/
theorem baseRoots_staged (hstaged : ∀ i root, group.staged[i]? = some root → Staged group.initial root (i + 1)) :
    (group.staged = [] ∧ group.baseRoots = group.initial) ∨
      (group.staged ≠ [] ∧ Staged group.initial group.baseRoots group.staged.length) := by
  rcases eq_nil_or_concat group.staged with hnil | ⟨chain, last, hlast⟩
  · left
    exact ⟨hnil, by rw [baseRoots, hnil]; rfl⟩
  · right
    rw [concat_eq_append] at hlast
    have hbase : group.baseRoots = last := by
      rw [baseRoots, hlast, getLast?_concat]
      rfl
    have hend := hstaged chain.length last (by rw [hlast]; simp)
    refine ⟨by simp [hlast], ?_⟩
    rw [hbase, hlast, length_append]
    exact hend

/-- Writing one commit on a base. -/
theorem commit_advances (hnext : nextCsn = transaction.base.visible + 1)
    (h : transaction.commit nextCsn catalogVersion walAnchor = .ok (root, next)) :
    Advances transaction.base root 1 ∧ next = root.visible + 1 ∧ next < 2 ^ 64 := by
  unfold commit at h
  simp only [bind_eq_ok, failIf_eq_ok, okOr_eq_ok, NonZeroUInt.new_eq_some, checkedAdd_eq_some,
    not_not, ok.injEq, Prod.mk.injEq] at h
  obtain ⟨-, -, commitCsn, hcsn, _, ⟨hlt, rfl⟩, -, hvalid, root, hroot, rfl, rfl⟩ := h
  obtain ⟨hvisible, hgeneration, hfloor⟩ := committedWithStorage_eq_ok hroot
  have hcommit : root.visible = commitCsn.get := congrArg csnValue hvisible
  refine ⟨⟨by omega, ?_, ?_⟩, by omega, hlt⟩
  · -- a floor that moves goes to the commit, which is above everything before it
    have hbase := transaction.base.floor_le
    unfold validTransition at hvalid
    unfold floor
    unfold visible at hnext
    rw [hfloor]
    split at hvalid
    · rw [hvalid.2, csnValue_some]
      omega
    · split at hvalid
      · rw [hvalid.2, csnValue_some]
        omega
      · exact le_of_eq (congrArg csnValue hvalid)
  · unfold validTransition at hvalid
    rw [hgeneration, hfloor, hvisible]
    split at hvalid
    · rename_i hnone
      exact .inl (hvalid.1.trans (transaction.base.generation_first hnone).symm)
    · split at hvalid
      · exact .inr ⟨checkedNext_eq_some.mp hvalid.1, congrArg some hvalid.2⟩
      · rename_i hsame
        exact .inl (not_not.mp hsame)

/-- Staging one more commit on a private chain. -/
theorem stageCommit_staged {after : RootGroupTransaction hashes} {roots : OrderedMap RootSlot PageId}
    {blobGeneration : BitVec 64} (hnext : nextCsn = group.initial.visible + 1)
    (hstaged : ∀ i root, group.staged[i]? = some root → Staged group.initial root (i + 1))
    (h : group.stageCommit nextCsn catalogVersion walAnchor roots blobGeneration = .ok after) :
    after.initial = group.initial ∧ ∀ i root, after.staged[i]? = some root → Staged group.initial root (i + 1) := by
  unfold stageCommit nextCommitCsn commitCsnAtOffset at h
  simp only [bind_eq_ok, okOr_eq_ok, NonZeroUInt.new_eq_some, checkedAdd_eq_some, ok.injEq] at h
  obtain ⟨commitCsn, ⟨_, ⟨-, rfl⟩, hcsn⟩, root, hroot, rfl⟩ := h
  obtain ⟨hvisible, hgeneration, hfloor⟩ := committedWithStorage_eq_ok hroot
  refine ⟨rfl, ?_⟩
  intro i other hother
  rw [getElem?_append] at hother
  split at hother
  · exact hstaged i other hother
  · rename_i hlast
    -- only the new root set stands behind the staged ones
    have hindex : i = group.staged.length := by
      by_contra hne
      rw [getElem?_eq_none (by simp only [length_singleton]; omega)] at hother
      cases hother
    subst hindex
    simp only [Nat.sub_self, getElem?_cons_zero, some.injEq] at hother
    subst hother
    have hcommit : root.visible = commitCsn.get := congrArg csnValue hvisible
    have hroot_floor : root.floor = if group.baseRoots.visibleCsn = none then commitCsn.get
      else group.baseRoots.floor := by
      rw [← inherited_floor, ← hfloor]
      rfl
    rcases baseRoots_staged hstaged with ⟨hnil, hbase⟩ | ⟨hne, hbase⟩
    · rw [hnil, length_nil] at hcsn ⊢
      rw [hbase] at hroot_floor hgeneration
      refine ⟨by omega, ?_, hgeneration⟩
      rw [hroot_floor]
      split
      · rename_i hnone
        have hzero : ¬0 < group.initial.visible := mt visible_pos.mp (not_not.mpr hnone)
        omega
      · rfl
    · have hlength := length_pos_of_ne_nil hne
      have hsome : group.baseRoots.visibleCsn ≠ none := by
        apply visible_pos.mp
        rw [hbase.visible]
        omega
      refine ⟨by omega, ?_, hgeneration.trans hbase.generation⟩
      rw [hroot_floor, if_neg hsome, hbase.floor]

theorem publish_advances (hstaged : ∀ i root, group.staged[i]? = some root → Staged group.initial root (i + 1))
    (h : group.publish = .ok (root, next)) :
    Staged group.initial root group.staged.length ∧ next = root.visible + 1 ∧ next < 2 ^ 64 := by
  unfold publish at h
  simp only [bind_eq_ok, okOr_eq_ok, checkedAdd_eq_some, ok.injEq, Prod.mk.injEq] at h
  obtain ⟨root, hlast, csn, hcsn, _, ⟨hlt, rfl⟩, rfl, rfl⟩ := h
  have hvisible : root.visible = csn.get := congrArg csnValue hcsn
  rcases baseRoots_staged hstaged with ⟨hnil, -⟩ | ⟨-, hbase⟩
  · rw [hnil] at hlast
    cases hlast
  · rw [baseRoots, hlast, getD_some] at hbase
    exact ⟨hbase, by omega, hlt⟩

/-! ## Steps of a coordinator -/

theorem Inv.nextCsn_eq (h : Inv coordinator) (hnext : coordinator.nextCsn ≠ 0) :
    coordinator.nextCsn = coordinator.current.visible + 1 := by
  rcases h.sequenced with ⟨heq, -⟩ | ⟨hzero, -⟩
  · exact heq
  · exact absurd hzero hnext

/-- A call that does not publish leaves the sequence where it was. -/
theorem Inv.of_kept {after : CommitCoordinator hashes} (h : Inv coordinator)
    (hcurrent : after.current = coordinator.current) (hnext : after.nextCsn = coordinator.nextCsn)
    (hgrounded : Grounded after) : Inv after := by
  refine ⟨?_, hgrounded⟩
  unfold Sequenced
  rw [hcurrent, hnext]
  exact h.sequenced

theorem inv_new (catalogVersion : CatalogVersion) : Inv (new hashes catalogVersion) :=
  ⟨.inl ⟨rfl, by norm_num [new]⟩, trivial⟩

theorem restore_eq_ok (h : restore root = .ok coordinator) : coordinator.current = root ∧ Inv coordinator := by
  unfold restore at h
  simp only [bind_eq_ok, okOr_eq_ok, failIf_eq_ok, ok.injEq] at h
  obtain ⟨visible, hvisible, -, -, rfl⟩ := h
  refine ⟨rfl, ?_, trivial⟩
  have hvalue : root.visible = visible.get := congrArg csnValue hvisible
  have hlt := visible.lt
  unfold Sequenced checkedAdd
  by_cases hfits : visible.get + 1 < 2 ^ 64
  · left
    simp only [if_pos hfits, getD_some]
    exact ⟨congrArg (· + 1) hvalue.symm, hfits⟩
  · right
    simp only [if_neg hfits, getD_none]
    refine ⟨trivial, ?_⟩
    show root.visible + 1 = 2 ^ 64
    omega

/-- Publishing installs a root set and the sequence behind it. -/
theorem inv_installed (hnext : next = root.visible + 1) (hlt : next < 2 ^ 64) :
    Inv ({ current := root, nextCsn := next, writer := none } : CommitCoordinator hashes) :=
  ⟨.inl ⟨hnext, hlt⟩, trivial⟩

/-- Every call keeps the invariant and has the effect said. -/
theorem Inv.step {after : CommitCoordinator hashes} {op : CommitCoordinator.Op} {result : MvccM Unit}
    (h : Inv coordinator) (hstep : coordinator.step op = some (result, after)) :
    Inv after ∧ Effect coordinator op result after := by
  have hgrounded := h.grounded
  unfold CommitCoordinator.step at hstep
  unfold Grounded at hgrounded
  split at hstep
  · -- a transaction starts on what is visible
    cases hbegin : coordinator.beginWrite with
    | error e =>
      rw [hbegin] at hstep
      cases hstep
      exact ⟨h.of_kept rfl rfl trivial, rfl, rfl⟩
    | ok transaction =>
      rw [hbegin] at hstep
      cases hstep
      unfold CommitCoordinator.beginWrite at hbegin
      simp only [bind_eq_ok, failIf_eq_ok, ok.injEq] at hbegin
      obtain ⟨-, hnext, rfl⟩ := hbegin
      exact ⟨h.of_kept rfl rfl ⟨rfl, hnext⟩, rfl, rfl⟩
  · -- so does a group
    cases hbegin : coordinator.beginGroupWrite with
    | error e =>
      rw [hbegin] at hstep
      cases hstep
      exact ⟨h.of_kept rfl rfl trivial, rfl, rfl⟩
    | ok group =>
      rw [hbegin] at hstep
      cases hstep
      unfold CommitCoordinator.beginGroupWrite at hbegin
      simp only [bind_eq_ok, failIf_eq_ok, ok.injEq] at hbegin
      obtain ⟨-, hnext, rfl⟩ := hbegin
      refine ⟨h.of_kept rfl rfl ⟨rfl, hnext, ?_⟩, rfl, rfl⟩
      intro i root hroot
      cases hroot
  -- the setters keep the base
  iterate 4
    · rename_i hwriter
      rw [hwriter] at hgrounded
      cases hstep
      exact ⟨h.of_kept rfl rfl hgrounded, rfl, rfl⟩
  · -- a commit installs its successor of the base, or gives the writer up
    rename_i transaction catalogVersion walAnchor hwriter
    rw [hwriter] at hgrounded
    obtain ⟨hbase, hnext⟩ := hgrounded
    cases hcommit : transaction.commit coordinator.nextCsn catalogVersion walAnchor with
    | error e =>
      rw [hcommit] at hstep
      cases hstep
      exact ⟨h.of_kept rfl rfl trivial, rfl, rfl⟩
    | ok published =>
      rw [hcommit] at hstep
      cases hstep
      have hcsn := h.nextCsn_eq hnext
      rw [← hbase] at hcsn
      obtain ⟨hadvances, hsequence, hlt⟩ := commit_advances hcsn hcommit
      rw [hbase] at hadvances
      exact ⟨inv_installed hsequence hlt, hadvances⟩
  · -- a staged commit lengthens the chain of the group, and nothing is visible yet
    rename_i group catalogVersion walAnchor roots blobGeneration hwriter
    rw [hwriter] at hgrounded
    obtain ⟨hinitial, hnext, hstaged⟩ := hgrounded
    cases hstage : group.stageCommit coordinator.nextCsn catalogVersion walAnchor roots blobGeneration with
    | error e =>
      rw [hstage] at hstep
      cases hstep
      exact ⟨h.of_kept rfl rfl ⟨hinitial, hnext, hstaged⟩, rfl, rfl⟩
    | ok staged =>
      rw [hstage] at hstep
      cases hstep
      have hcsn := h.nextCsn_eq hnext
      rw [← hinitial] at hcsn hstaged
      obtain ⟨hsame, hchain⟩ := stageCommit_staged hcsn hstaged hstage
      rw [hinitial] at hchain hsame
      exact ⟨h.of_kept rfl rfl ⟨hsame, hnext, hchain⟩, rfl, rfl⟩
  · -- the group installs the last root of its chain
    rename_i group hwriter
    rw [hwriter] at hgrounded
    obtain ⟨hinitial, -, hstaged⟩ := hgrounded
    cases hpublish : group.publish with
    | error e =>
      rw [hpublish] at hstep
      cases hstep
      exact ⟨h.of_kept rfl rfl trivial, rfl, rfl⟩
    | ok published =>
      rw [hpublish] at hstep
      cases hstep
      rw [← hinitial] at hstaged
      obtain ⟨hlast, hsequence, hlt⟩ := publish_advances hstaged hpublish
      rw [hinitial] at hlast
      exact ⟨inv_installed hsequence hlt, group, hwriter, hlast.advances, hlast.generation⟩
  · cases hstep
    exact ⟨h.of_kept rfl rfl trivial, rfl, rfl⟩
  · cases hstep

/-! ## Worlds -/

/-- Coordinators, and the snapshots taken from them. -/
structure World (hashes : Hashes) where
  coordinators : List (CommitCoordinator hashes)
  snapshots : List (Snapshot hashes)

/-- One call on some coordinator, or a new coordinator. -/
inductive Event (hashes : Hashes)
  | create (catalogVersion : CatalogVersion)
  | restore (root : RootSet hashes)
  | snapshot (index : Nat) (logicalTimeMicros : BitVec 64)
  | call (index : Nat) (op : CommitCoordinator.Op)

namespace World

variable {result : MvccM Unit} {world after : World hashes}

def start (hashes : Hashes) : World hashes := { coordinators := [], snapshots := [] }

def step (world : World hashes) : Event hashes → Option (MvccM Unit × World hashes)
  | .create catalogVersion =>
    some (.ok (), { world with coordinators := world.coordinators ++ [.new hashes catalogVersion] })
  | .restore root =>
    match CommitCoordinator.restore root with
    | .ok coordinator => some (.ok (), { world with coordinators := world.coordinators ++ [coordinator] })
    | .error e => some (.error e, world)
  | .snapshot index logicalTimeMicros => do
    let coordinator ← world.coordinators[index]?
    some (.ok (), { world with snapshots := world.snapshots ++ [coordinator.snapshot logicalTimeMicros] })
  | .call index op => do
    let coordinator ← world.coordinators[index]?
    let (result, after) ← coordinator.step op
    some (result, { world with coordinators := world.coordinators.set index after })

def run (world : World hashes) (events : List (Event hashes)) : Option (World hashes) :=
  events.foldlM (fun world event => (world.step event).map Prod.snd) world

/-- What an event does to a world. -/
def EventEffect (world : World hashes) (event : Event hashes) (result : MvccM Unit) (after : World hashes) :
    Prop :=
  match event, result with
  | .create catalogVersion, _ => after.snapshots = world.snapshots ∧
      after.coordinators = world.coordinators ++ [.new hashes catalogVersion]
  | .restore root, .ok _ => after.snapshots = world.snapshots ∧
      ∃ coordinator, after.coordinators = world.coordinators ++ [coordinator] ∧ coordinator.current = root
  | .restore _, .error _ => after = world
  | .snapshot index _, _ => after.coordinators = world.coordinators ∧ ∃ coordinator snapshot,
      world.coordinators[index]? = some coordinator ∧ after.snapshots = world.snapshots ++ [snapshot] ∧
      snapshot.roots = coordinator.current ∧ snapshot.visibleCsn = coordinator.current.visibleCsn
  | .call index op, result => after.snapshots = world.snapshots ∧ ∃ coordinator coordinator',
      world.coordinators[index]? = some coordinator ∧
      after.coordinators = world.coordinators.set index coordinator' ∧ Effect coordinator op result coordinator'

/-- Whatever happens later, floors and visible commits do not go back, and snapshots stay as they are. -/
structure Later (world after : World hashes) : Prop where
  coordinators : ∀ (i : Nat) (coordinator : CommitCoordinator hashes), world.coordinators[i]? = some coordinator →
    ∃ coordinator', after.coordinators[i]? = some coordinator' ∧
      coordinator.current.floor ≤ coordinator'.current.floor ∧
      coordinator.current.visible ≤ coordinator'.current.visible
  snapshots : world.snapshots <+: after.snapshots

/-- Every coordinator keeps its invariant. -/
def Sound (world : World hashes) : Prop := ∀ coordinator ∈ world.coordinators, Inv coordinator

theorem Effect.not_back {coordinator after : CommitCoordinator hashes} {op : CommitCoordinator.Op}
    (h : Effect coordinator op result after) :
    coordinator.current.floor ≤ after.current.floor ∧ coordinator.current.visible ≤ after.current.visible := by
  unfold Effect at h
  split at h
  · exact ⟨h.floor, h.visible ▸ Nat.le_add_right _ _⟩
  · obtain ⟨group, -, hadvances, -⟩ := h
    exact ⟨hadvances.floor, hadvances.visible ▸ Nat.le_add_right _ _⟩
  · rw [h.1]
    exact ⟨Nat.le_refl _, Nat.le_refl _⟩

theorem Sound.step {event : Event hashes} (h : Sound world) (hstep : world.step event = some (result, after)) :
    Sound after ∧ EventEffect world event result after := by
  cases event with
  | create catalogVersion =>
    cases hstep
    refine ⟨?_, rfl, rfl⟩
    intro coordinator hmem
    rcases mem_append.mp hmem with hold | hnew
    · exact h coordinator hold
    · rw [mem_singleton.mp hnew]
      exact inv_new catalogVersion
  | restore root =>
    rw [World.step] at hstep
    cases hrestore : restore root with
    | error e =>
      rw [hrestore] at hstep
      cases hstep
      exact ⟨h, rfl⟩
    | ok restored =>
      rw [hrestore] at hstep
      cases hstep
      obtain ⟨hroot, hinv⟩ := restore_eq_ok hrestore
      refine ⟨?_, rfl, restored, rfl, hroot⟩
      intro coordinator hmem
      rcases mem_append.mp hmem with hold | hnew
      · exact h coordinator hold
      · rw [mem_singleton.mp hnew]
        exact hinv
  | snapshot index logicalTimeMicros =>
    unfold World.step at hstep
    simp only [bind_eq_bind, bind_eq_some_iff, some.injEq, Prod.mk.injEq] at hstep
    obtain ⟨coordinator, hat, rfl, rfl⟩ := hstep
    exact ⟨h, rfl, coordinator, _, hat, rfl, rfl, rfl⟩
  | call index op =>
    unfold World.step at hstep
    simp only [bind_eq_bind, bind_eq_some_iff, some.injEq, Prod.mk.injEq] at hstep
    obtain ⟨coordinator, hat, ⟨result, coordinator'⟩, hcall, rfl, rfl⟩ := hstep
    obtain ⟨hinv, heffect⟩ := (h coordinator (mem_of_getElem? hat)).step hcall
    refine ⟨?_, rfl, coordinator, coordinator', hat, rfl, heffect⟩
    intro other hmem
    rcases mem_or_eq_of_mem_set hmem with hold | rfl
    · exact h other hold
    · exact hinv

theorem Later.refl (world : World hashes) : Later world world :=
  ⟨fun _ coordinator h => ⟨coordinator, h, Nat.le_refl _, Nat.le_refl _⟩, prefix_refl _⟩

theorem Later.trans {first second third : World hashes} (h : Later first second) (h' : Later second third) :
    Later first third := by
  refine ⟨?_, h.snapshots.trans h'.snapshots⟩
  intro i coordinator hat
  obtain ⟨coordinator', hat', hfloor, hvisible⟩ := h.coordinators i coordinator hat
  obtain ⟨coordinator'', hat'', hfloor', hvisible'⟩ := h'.coordinators i coordinator' hat'
  exact ⟨coordinator'', hat'', hfloor.trans hfloor', hvisible.trans hvisible'⟩

/-- Coordinators that are all still there. -/
theorem later_of_append {more : List (CommitCoordinator hashes)}
    (hcoordinators : after.coordinators = world.coordinators ++ more)
      (hsnapshots : world.snapshots <+: after.snapshots) :
    Later world after := by
  refine ⟨?_, hsnapshots⟩
  intro i coordinator hat
  obtain ⟨hlt, -⟩ := List.getElem?_eq_some_iff.mp hat
  refine ⟨coordinator, ?_, Nat.le_refl _, Nat.le_refl _⟩
  rw [hcoordinators, getElem?_append_left hlt, hat]

theorem EventEffect.later {event : Event hashes} (h : EventEffect world event result after) : Later world after := by
  unfold EventEffect at h
  split at h
  · exact later_of_append h.2 (h.1 ▸ prefix_refl _)
  · obtain ⟨hsnapshots, coordinator, hcoordinators, -⟩ := h
    exact later_of_append hcoordinators (hsnapshots ▸ prefix_refl _)
  · rw [h]
    exact Later.refl world
  · obtain ⟨hcoordinators, _, snapshot, -, hsnapshots, -⟩ := h
    refine @later_of_append _ _ _ [] ?_ ?_
    · rw [hcoordinators, append_nil]
    · rw [hsnapshots]
      exact prefix_append _ _
  · rename_i index op
    obtain ⟨hsnapshots, coordinator, coordinator', hat, hcoordinators, heffect⟩ := h
    refine ⟨?_, hsnapshots ▸ prefix_refl _⟩
    intro i other hother
    rw [hcoordinators, getElem?_set]
    by_cases hi : index = i
    · -- the coordinator that was called
      subst hi
      obtain ⟨hlt, -⟩ := List.getElem?_eq_some_iff.mp hat
      rw [hat] at hother
      cases hother
      exact ⟨coordinator', by rw [if_pos rfl, if_pos hlt], Effect.not_back heffect⟩
    · exact ⟨other, by rw [if_neg hi, hother], Nat.le_refl _, Nat.le_refl _⟩

theorem Sound.run {events : List (Event hashes)} (h : Sound world) (hrun : world.run events = some after) :
    Sound after ∧ Later world after := by
  unfold World.run at hrun
  induction events generalizing world with
  | nil =>
    cases hrun
    exact ⟨h, Later.refl _⟩
  | cons event events ih =>
    simp only [foldlM_cons, bind_eq_bind, bind_eq_some_iff, map_eq_some_iff] at hrun
    obtain ⟨next, ⟨⟨result, _⟩, hstep, rfl⟩, hrest⟩ := hrun
    obtain ⟨hsound, heffect⟩ := h.step hstep
    obtain ⟨hafter, hlater⟩ := ih hsound hrest
    exact ⟨hafter, (EventEffect.later heffect).trans hlater⟩

/-- In every state of every history the next sequence is the one behind the visible commit and the floor is not above
it; every event has exactly its effect; and nothing later moves a floor back or changes a snapshot. -/
theorem histories_publish_in_sequence (events : List (Event hashes)) (world : World hashes)
    (h : (start hashes).run events = some world) :
    (∀ coordinator ∈ world.coordinators, Sequenced coordinator ∧
      coordinator.current.floor ≤ coordinator.current.visible) ∧
    (∀ event result after, world.step event = some (result, after) → EventEffect world event result after) ∧
    (∀ more after, world.run more = some after → Later world after) := by
  have hsound : Sound world := by
    refine (Sound.run ?_ h).1
    intro coordinator hmem
    cases hmem
  refine ⟨?_, ?_, ?_⟩
  · intro coordinator hmem
    exact ⟨(hsound coordinator hmem).sequenced, coordinator.current.floor_le⟩
  · intro event result after hstep
    exact (hsound.step hstep).2
  · intro more after hrun
    exact (hsound.run hrun).2

/-- A commit, a group of two, and a snapshot between them. -/
def commitThenGroup : List (Event Wal.Session.constantHashes) :=
  let anchor : WalAnchor := ⟨first, ⟨List.replicate 32 1, rfl⟩⟩
  [.create first, .call 0 .beginWrite, .call 0 (.setRoot ⟨.relational, 0⟩ first), .call 0 (.commit first anchor),
    .snapshot 0 7, .call 0 .beginGroupWrite, .call 0 (.stageCommit first anchor OrderedMap.empty 0),
    .call 0 (.stageCommit first anchor OrderedMap.empty 0), .call 0 .publish]

theorem histories_publish_in_sequence_commitThenGroup :
    ∃ world, (start Wal.Session.constantHashes).run commitThenGroup = some world ∧
      (∀ coordinator ∈ world.coordinators, Sequenced coordinator ∧
        coordinator.current.floor ≤ coordinator.current.visible) := by
  obtain ⟨world, hworld⟩ : ∃ world, (start Wal.Session.constantHashes).run commitThenGroup = some world := ⟨_, rfl⟩
  exact ⟨world, hworld, (histories_publish_in_sequence commitThenGroup world hworld).1⟩

end World

end Hyphae.Mvcc
