import Nachos.Lib.Update
import Nachos.Userprog.Join

/-!
# The slots of the table of `Exec`

When a bit of `execFilesMap` is set, in the runs of `Nachos.Userprog.Join`.

* `ExecHistory` adds the slot that `Exec` returned for every thread that it made.
* `SlotsConserved` is what the table is for: the bit of a slot is set while its thread has not
  ended, and while somebody is in `Join` for it.
* `SlotSafe` is the condition on the steps: nobody calls `Join` for a process that has been joined,
  and a process whose file cannot be opened has been joined before it starts.
* `SlotInv` is the invariant: what is in the table, and for whom.
-/

namespace Nachos

open Function Transition Processes

/-- The processes, and the slot of every thread that `Exec` has made. -/
structure ExecHistory where
  processes : Processes
  made : ℕ → Option (Fin ExecTableSize)

/-- `Exec` notes down the slot that it returns. -/
def ExecHistory.madeAfter (h : ExecHistory) : Call → ℕ → Option (Fin ExecTableSize)
  | .exec _ _ =>
    match h.processes.execFilesMap.find with
    | (some fileToExec, _) => update h.made h.processes.numThreads (some fileToExec)
    | (none, _) => h.made
  | _ => h.made

variable (canOpen : String → Bool)

/-- One step. -/
def ExecStep (h : ExecHistory) (c : Call) (h' : ExecHistory) : Prop :=
  CallStep canOpen h.processes c h'.processes ∧ h'.made = h.madeAfter c

/-- No thread was made by `Exec`. -/
def ExecInit (h : ExecHistory) : Prop := ProcessesInit h.processes ∧ h.made = fun _ => none

/-- The states of all runs. -/
def ExecReach (h : ExecHistory) : Prop := Reach ExecInit (ExecStep canOpen) h

/-- `Join` finds a process that nobody has joined; a process whose file cannot be opened has been
joined. -/
def SlotSafe (s : Processes) : Call → Prop
  | .join _ id => s.execFilesMap.isSet id = true → ∀ e ∈ s.execFiles id, e.s = none
  | .start t =>
    match s.threads t with
    | .execThread slot => ∀ info ∈ s.execFiles slot, canOpen info.fileName = false → info.s ≠ none
    | _ => True
  | _ => True

/-- The states of the runs all of whose steps are of this kind. -/
def SlotReach (h : ExecHistory) : Prop :=
  Reach ExecInit
    (fun h c h' => ExecStep canOpen h c h' ∧ SlotSafe canOpen h.processes c) h

/-- The thread that `Exec` made for the slot has not ended, or somebody is in `Join` for it. -/
def ExecHistory.InUse (h : ExecHistory) (id : Fin ExecTableSize) : Prop :=
  ∃ t, h.made t = some id ∧ (h.processes.threads t ≠ .ended ∨
    ∃ u sem, (h.processes.threads u).Joins id sem t)

/-- The bits that are set are those of the slots in use, so that `Exec` takes none of them. -/
def SlotsConserved (h : ExecHistory) : Prop :=
  (∀ id : Fin ExecTableSize, h.processes.execFilesMap.isSet id = true ↔ h.InUse id) ∧
  ∀ id m, h.processes.execFilesMap.find = (some id, m) → ¬ h.InUse id

/-! ### Slots and threads -/

/-- What is in the table, and for whom. -/
structure SlotInv (s : Processes) (made : ℕ → Option (Fin ExecTableSize)) : Prop where
  bound : ∀ t id, made t = some id → t < s.numThreads
  entry : ∀ id e, s.execFiles id = some e → made e.threadId = some id
  running : ∀ id e, s.execFiles id = some e → e.s = none → s.threads e.threadId ≠ .ended
  joiner : ∀ id e sem, s.execFiles id = some e → e.s = some sem →
    ∃ u, (s.threads u).Joins id sem e.threadId
  live : ∀ t id, made t = some id → s.threads t ≠ .ended →
    ∃ e, s.execFiles id = some e ∧ e.threadId = t

section Steps

open Update

variable {s s' : Processes} {made : ℕ → Option (Fin ExecTableSize)} {t : ℕ}
  {id : Fin ExecTableSize} {e : JoinS}

theorem slotInv_init (h : ProcessesInit s) : SlotInv s fun _ => none := by
  obtain ⟨words, rfl⟩ := h
  exact ⟨by simp, by simp, by simp, by simp, by simp⟩

/-- The only slot of a thread. -/
theorem SlotInv.slot_unique (h : SlotInv s made) {id' : Fin ExecTableSize} {e' : JoinS}
    (he : s.execFiles id = some e) (he' : s.execFiles id' = some e')
    (ht : e'.threadId = e.threadId) : id' = id := by
  have hid := h.entry id e he
  rw [← ht, h.entry id' e' he'] at hid
  exact Option.some.inj hid

/-- A thread goes on outside of `Join`. -/
theorem SlotInv.goto (h : SlotInv s made) {p : ThreadPlace}
    (hj : ∀ id sem proc, ¬ (s.threads t).Joins id sem proc)
    (hp : p = .ended → ∀ id e, s.execFiles id = some e → e.s = none → e.threadId ≠ t)
    (ht : s.threads t ≠ .ended) : SlotInv (s.goto t p) made where
  bound := h.bound
  entry := h.entry
  running id e he hs := by
    by_cases het : e.threadId = t
    · rw [het, goto_threads_self]
      exact fun hpe => hp hpe id e he hs het
    · rw [goto_threads_of_ne het]
      exact h.running id e he hs
  joiner id e sem he hs := by
    obtain ⟨u, hu⟩ := h.joiner id e sem he hs
    exact ⟨u, update_of (P := ThreadPlace.Joins id sem e.threadId) hu (hj id sem e.threadId)⟩
  live u id hu hne := by
    refine h.live u id hu fun hended => ?_
    have hut : u ≠ t := by
      rintro rfl
      exact ht hended
    exact hne ((goto_threads_of_ne hut).trans hended)

/-- A slot is freed whose thread has ended and whose joiners, if there are any, go on. -/
theorem SlotInv.freeSlot (h : SlotInv s made) {p : ThreadPlace} (he : s.execFiles id = some e)
    (hj : ∀ id' sem proc, (s.threads t).Joins id' sem proc → id' = id)
    (hend : (s.goto t p).threads e.threadId = .ended)
    (hlive : ∀ u, (s.goto t p).threads u ≠ .ended → s.threads u ≠ .ended)
    (hp : p = .ended → e.threadId = t) : SlotInv ((s.freeSlot id).goto t p) made := by
  have hold : ∀ id' e', (s.freeSlot id).execFiles id' = some e' →
      id' ≠ id ∧ s.execFiles id' = some e' :=
    fun id' e' he' => of_update_eq he' (by simp)
  refine ⟨h.bound, fun id' e' he' => h.entry id' e' (hold id' e' he').2, fun id' e' he' hs => ?_,
    fun id' e' sem he' hs => ?_, fun u id' hu hne => ?_⟩
  · obtain ⟨hid, he'⟩ := hold id' e' he'
    intro hended
    by_cases het : e'.threadId = t
    · rw [het] at hended
      have hpe : p = .ended := (update_self ..).symm.trans hended
      exact hid (h.slot_unique he he' (het.trans (hp hpe).symm))
    · exact h.running id' e' he' hs ((goto_threads_of_ne het).symm.trans hended)
  · obtain ⟨hid, he'⟩ := hold id' e' he'
    obtain ⟨u, hu⟩ := h.joiner id' e' sem he' hs
    exact ⟨u, update_of (P := ThreadPlace.Joins id' sem e'.threadId) hu
      fun hjt => hid (hj id' sem e'.threadId hjt)⟩
  · obtain ⟨e', he', rfl⟩ := h.live u id' hu (hlive u hne)
    have hid : id' ≠ id := by
      rintro rfl
      rw [he] at he'
      cases he'
      exact hne hend
    exact ⟨e', (update_of_ne hid ..).trans he', rfl⟩

/-- The thread of `Exec` and its slot are new. -/
theorem SlotInv.exec (h : SlotInv s made) (hJ : JoinInv s) {f : Fin ExecTableSize}
    {m : BitMap ExecTableSize} (fileName : String) (hf : s.execFilesMap.find = (some f, m)) :
    SlotInv (s.exec fileName) (update made s.numThreads (some f)) := by
  have hfree := hJ.find_free hf
  have hnew := hJ.unborn s.numThreads (Nat.le_refl _)
  -- an entry is the new one, or it was there before
  have hslot : ∀ id e, update s.execFiles f (some ⟨s.numThreads, fileName, none⟩) id =
      some e → id = f ∧ e = ⟨s.numThreads, fileName, none⟩ ∨ s.execFiles id = some e :=
    fun id e he => (update_cases he).imp (fun ⟨hid, he⟩ => ⟨hid, Option.some.inj he⟩) And.right
  simp only [Processes.exec, hf]
  refine ⟨fun t id ht => ?_, fun id e he => ?_, fun id e he hs => ?_, fun id e sem he hs => ?_,
    fun t id ht hne => ?_⟩
  · by_cases htn : t = s.numThreads
    · rw [htn]
      exact Nat.lt_succ_self _
    · rw [update_of_ne htn] at ht
      exact Nat.lt_succ_of_lt (h.bound t id ht)
  · rcases hslot id e he with ⟨rfl, rfl⟩ | he
    · exact update_self ..
    · exact (update_of_ne (hJ.known id e he).ne ..).trans (h.entry id e he)
  · rcases hslot id e he with ⟨rfl, rfl⟩ | he
    · simp
    · intro hended
      exact h.running id e he hs
        ((update_of_ne (hJ.known id e he).ne ..).symm.trans hended)
  · rcases hslot id e he with ⟨rfl, rfl⟩ | he
    · cases hs
    · obtain ⟨u, hu⟩ := h.joiner id e sem he hs
      refine ⟨u, update_of (P := ThreadPlace.Joins id sem e.threadId) hu ?_⟩
      simp [hnew]
  · by_cases htn : t = s.numThreads
    · subst htn
      rw [update_self] at ht
      cases ht
      exact ⟨_, update_self .., rfl⟩
    · rw [update_of_ne htn] at ht
      obtain ⟨e, he, het⟩ := h.live t id ht fun hended =>
        hne ((update_of_ne htn ..).trans hended)
      have hid : id ≠ f := by
        rintro rfl
        rw [hfree] at he
        cases he
      exact ⟨e, (update_of_ne hid ..).trans he, het⟩

theorem SlotInv.fork (h : SlotInv s made) (hJ : JoinInv s) : SlotInv s.fork made := by
  have hnew := hJ.unborn s.numThreads (Nat.le_refl _)
  have hgoto := h.goto (t := s.numThreads) (p := .user) (by simp [hnew])
    (by simp) (by simp [hnew])
  exact { hgoto with bound := fun t id ht => Nat.lt_succ_of_lt (h.bound t id ht) }

theorem SlotInv.exit (h : SlotInv s made) (hJ : JoinInv s) (ht : s.threads t = .user)
    (hex : s.exitLoop t = some s') : SlotInv (s'.goto t .ended) made := by
  have hnj : ∀ id sem proc, ¬ (s.threads t).Joins id sem proc := by
    simp [ht]
  rcases hJ.exitLoop_cases hex with
    ⟨rfl, hslot⟩ | ⟨id, e, he, het, ⟨hes, rfl⟩ | ⟨sem, hes, rfl⟩⟩
  · exact h.goto hnj (fun _ id e he _ => hslot id e he) (by simp [ht])
  · refine h.freeSlot he (fun id' sem proc hj => absurd hj (hnj id' sem proc)) ?_ (fun u hu => ?_)
      fun _ => het
    · rw [het]
      exact goto_threads_self
    · intro hended
      exact hu (update_eq_of hended (by simp [ht]))
  · have hsig : SlotInv (s.signal sem) made := { h with }
    refine hsig.goto hnj (fun _ id' e' he' hes' het' => ?_) (by simp [Processes.signal, ht])
    obtain rfl := h.slot_unique he he' (het'.trans het.symm)
    rw [show s.execFiles id' = some e' from he'] at he
    cases he
    rw [hes] at hes'
    cases hes'

theorem SlotInv.join (h : SlotInv s made) (ht : s.threads t = .user)
    (he : s.execFiles id = some e) : SlotInv (s.join t id e) made := by
  have hnj : ∀ id sem proc, ¬ (s.threads t).Joins id sem proc := by
    simp [ht]
  have hended : ∀ u, (s.join t id e).threads u = .ended ↔ s.threads u = .ended :=
    fun u => goto_threads_ended (by simp [ht])
  refine ⟨h.bound, fun id' e' he' => ?_, fun id' e' he' hs => ?_, fun id' e' sem he' hs => ?_,
    fun u id' hu hne => ?_⟩
  · by_cases hid : id' = id
    · subst hid
      cases (update_self ..).symm.trans he'
      exact h.entry id' e he
    · exact h.entry id' e' ((update_of_ne hid ..).symm.trans he')
  · have hid : id' ≠ id := by
      rintro rfl
      cases (update_self ..).symm.trans he'
      cases hs
    rw [Ne, hended]
    exact h.running id' e' ((update_of_ne hid ..).symm.trans he') hs
  · by_cases hid : id' = id
    · subst hid
      cases (update_self ..).symm.trans he'
      cases hs
      exact ⟨t, Or.inl (update_self ..)⟩
    · obtain ⟨u, hu⟩ := h.joiner id' e' sem ((update_of_ne hid ..).symm.trans he') hs
      exact ⟨u, update_of (P := ThreadPlace.Joins id' sem e'.threadId) hu (hnj _ _ _)⟩
  · obtain ⟨e', he', het'⟩ := h.live u id' hu (by rwa [Ne, ← hended])
    by_cases hid : id' = id
    · subst hid
      rw [he] at he'
      cases he'
      exact ⟨_, update_self .., het'⟩
    · exact ⟨e', (update_of_ne hid ..).trans he', het'⟩

theorem SlotInv.wake (h : SlotInv s made) {sem proc : ℕ}
    (ht : s.threads t = .joinWait id sem proc) : SlotInv (s.wake t id sem proc) made := by
  have hended : ∀ u, (s.wake t id sem proc).threads u = .ended ↔ s.threads u = .ended :=
    fun u => goto_threads_ended (by simp [ht])
  refine ⟨h.bound, h.entry, fun id' e' he' hs => ?_, fun id' e' sem' he' hs => ?_,
    fun u id' hu hne => h.live u id' hu (by rwa [Ne, ← hended])⟩
  · rw [Ne, hended]
    exact h.running id' e' he' hs
  · obtain ⟨u, hu⟩ := h.joiner id' e' sem' he' hs
    refine ⟨u, ?_⟩
    by_cases hut : u = t
    · subst hut
      rw [ht] at hu
      rcases hu with hu | hu
      · cases hu
        exact Or.inr (update_self ..)
      · cases hu
    · exact hu.imp (goto_threads_of_ne hut).trans (goto_threads_of_ne hut).trans

theorem SlotInv.finish (h : SlotInv s made) (hJ : JoinInv s) {sem proc : ℕ}
    (ht : s.threads t = .joinEnd id sem proc) : SlotInv ((s.freeSlot id).goto t .user) made := by
  obtain ⟨e, he, rfl, -⟩ := hJ.joined t id sem proc (Or.inr ht)
  have hfin := hJ.finished t id sem e.threadId ht
  refine h.freeSlot he (fun id' sem' proc' hj => ?_) ?_ (fun u hu hended => ?_) (by simp)
  · rw [ht] at hj
    rcases hj with hj | hj
    · cases hj
    · cases hj
      rfl
  · exact update_eq_of hfin (by simp [ht])
  · exact hu (update_eq_of hended (by simp [ht]))

/-- A step keeps the invariant, if a process that fails to start has been joined. -/
theorem SlotInv.step {c : Call} (h : SlotInv s made) (hJ : JoinInv s)
    (hst : CallStep canOpen s c s') (hsafe : SlotSafe canOpen s c) :
    SlotInv s' ((ExecHistory.mk s made).madeAfter c) := by
  revert hsafe
  refine hst.inversion (P := fun c s' =>
    SlotSafe canOpen s c → SlotInv s' ((ExecHistory.mk s made).madeAfter c))
    ?_ ?_ ?_ ?_ ?_ ?_ ?_ ?_
  · intro t fileName _ _
    simp only [ExecHistory.madeAfter]
    split
    · rename_i f m hf
      exact h.exec hJ fileName hf
    · rename_i m hf
      simp only [Processes.exec, hf]
      exact h
  · exact fun _ _ _ => h.fork hJ
  · intro t slot info ht hinfo hsafe
    simp only [SlotSafe, ht] at hsafe
    split_ifs with hopen
    · exact h.goto (by simp [ht]) (by simp) (by simp [ht])
    · refine h.goto (by simp [ht]) (fun _ id e he hes het => ?_) (by simp [ht])
      obtain ⟨e', he', het'⟩ := hJ.exec t slot ht
      obtain rfl := h.slot_unique he he' (het'.trans het.symm)
      exact hsafe e he (by simp_all) hes
  · exact fun t s₁ ht hex _ => h.exit hJ ht hex
  · exact fun t id e ht _ he _ => h.join ht he
  · exact fun _ _ _ => h
  · exact fun t id sem proc ht _ _ => h.wake ht
  · exact fun t id sem proc ht _ => h.finish hJ ht

end Steps

/-! ### The result -/

section Result

variable {canOpen} {h : ExecHistory}

theorem SlotSafe.joinsOnce {s : Processes} {c : Call} (h : SlotSafe canOpen s c) :
    JoinsOnce s c := by
  cases c with
  | join t id => exact h
  | _ => trivial

theorem SlotReach.inv (hr : SlotReach canOpen h) :
    JoinInv h.processes ∧ SlotInv h.processes h.made := by
  refine Reach.invariant (I := fun h => JoinInv h.processes ∧ SlotInv h.processes h.made)
    ?_ ?_ hr
  · rintro ⟨s, made⟩ ⟨hi, hm⟩
    obtain rfl : made = fun _ => none := hm
    exact ⟨joinInv_init hi, slotInv_init hi⟩
  · rintro h c h' ⟨hJ, hS⟩ ⟨⟨hst, hmade⟩, hsafe⟩
    refine ⟨hJ.step hst hsafe.joinsOnce, ?_⟩
    rw [hmade]
    exact hS.step canOpen hJ hst hsafe

theorem SlotReach.isSet_iff (hr : SlotReach canOpen h) (id : Fin ExecTableSize) :
    h.processes.execFilesMap.isSet id = true ↔ h.InUse id := by
  obtain ⟨hJ, hS⟩ := hr.inv
  rw [hJ.map id]
  constructor
  · intro hne
    obtain ⟨e, he⟩ := Option.ne_none_iff_exists'.1 hne
    refine ⟨e.threadId, hS.entry id e he, ?_⟩
    cases hes : e.s with
    | none => exact Or.inl (hS.running id e he hes)
    | some sem =>
      obtain ⟨u, hu⟩ := hS.joiner id e sem he hes
      exact Or.inr ⟨u, sem, hu⟩
  · rintro ⟨t, hmade, hlive | ⟨u, sem, hu⟩⟩
    · obtain ⟨e, he, -⟩ := hS.live t id hmade hlive
      simp [he]
    · obtain ⟨e, he, -⟩ := hJ.joined u id sem t hu
      simp [he]

end Result

/-- **The slots of the table of `Exec` are conserved**, in the runs in which nobody calls `Join` for
a process that has been joined, and a process whose file cannot be opened has been joined before it
starts: the bit of a slot is set if and only if the thread that `Exec` made for it has not ended or
somebody is in `Join` for it; and `Exec` takes no such slot. -/
theorem exec_slots_conserved {canOpen : String → Bool} {h : ExecHistory}
    (hr : SlotReach canOpen h) : SlotsConserved h := by
  refine ⟨hr.isSet_iff, fun id m hf huse => ?_⟩
  have hclear := (BitMap.find_some hf).1
  rw [(hr.isSet_iff id).2 huse] at hclear
  cases hclear

/-! ### Runs -/

instance decidableSlotSafe (canOpen : String → Bool) (s : Processes) :
    ∀ c : Call, Decidable (SlotSafe canOpen s c)
  | .exec _ _ | .fork _ | .exit _ | .wake _ | .finish _ => isTrue trivial
  | .join _ id => inferInstanceAs (Decidable (_ → ∀ e ∈ s.execFiles id, _))
  | .start t =>
    match hp : s.threads t with
    | .execThread slot => decidable_of_iff
        (∀ info ∈ s.execFiles slot, canOpen info.fileName = false → info.s ≠ none)
        (by simp [SlotSafe, hp])
    | .unborn | .user | .joinWait .. | .joinEnd .. | .ended => isTrue (by simp [SlotSafe, hp])

/-- Perform a part of a system call, if the thread is there. -/
def ExecHistory.perform (canOpen : String → Bool) (h : ExecHistory) (c : Call) :
    Option ExecHistory :=
  (c.perform canOpen h.processes).map fun s => ⟨s, h.madeAfter c⟩

theorem ExecHistory.perform_step {canOpen : String → Bool} {h h' : ExecHistory} {c : Call}
    (hp : h.perform canOpen c = some h') : ExecStep canOpen h c h' := by
  obtain ⟨s, hs, rfl⟩ := Option.map_eq_some_iff.1 hp
  exact ⟨hs, rfl⟩

/-- The same, for the steps that keep the slots. -/
def ExecHistory.performSafe (canOpen : String → Bool) (h : ExecHistory) (c : Call) :
    Option ExecHistory :=
  if SlotSafe canOpen h.processes c then h.perform canOpen c else none

theorem ExecHistory.performSafe_step {canOpen : String → Bool} {h h' : ExecHistory} {c : Call}
    (hp : h.performSafe canOpen c = some h') :
    ExecStep canOpen h c h' ∧ SlotSafe canOpen h.processes c := by
  unfold ExecHistory.performSafe at hp
  split_ifs at hp with hsafe
  exact ⟨ExecHistory.perform_step hp, hsafe⟩

/-- One thread, and an empty table. -/
def emptyTable : ExecHistory := ⟨oneProcess, fun _ => none⟩

theorem emptyTable_init : ExecInit emptyTable := ⟨oneProcess_init, rfl⟩

/-- The process has ended, and its joiner has not come back: the slot is in use. -/
theorem exec_slots_conserved_oneJoiner : ∃ h, SlotReach (fun _ => true) h ∧
    h.processes.threads 1 = .ended ∧ h.processes.execFilesMap.isSet 0 = true ∧ h.InUse 0 := by
  obtain ⟨h, hr, hend, hset⟩ : ∃ h, SlotReach (fun _ => true) h ∧
      h.processes.threads 1 = .ended ∧ h.processes.execFilesMap.isSet 0 = true :=
    Reach.exists_run (fun _ _ _ => ExecHistory.performSafe_step)
      (.init emptyTable_init) [.exec 0 "a", .join 0 0, .start 1, .exit 1, .wake 0]
      (by decide +kernel)
  exact ⟨h, hr, hend, hset, ((exec_slots_conserved hr).1 0).1 hset⟩

/-- The first process of thread 0, and the slot that is noted down for it. -/
theorem emptyTable_exec :
    oneProcess.exec "a" = { oneProcess with
      execFiles := update (fun _ => none) 0 (some ⟨1, "a", none⟩)
      execFilesMap := oneProcess.execFilesMap.setBit 0
      threads := update oneProcess.threads 1 (.execThread 0)
      numThreads := 2 } ∧
    emptyTable.madeAfter (.exec 0 "a") = update (fun _ => none) 1 (some 0) := by
  have hfound : oneProcess.execFilesMap.find.1 = some 0 := by decide +kernel
  have hfind : oneProcess.execFilesMap.find = (some 0, oneProcess.execFilesMap.setBit 0) := by
    cases hf : oneProcess.execFilesMap.find with
    | mk found m =>
      rw [hf] at hfound
      cases hfound
      rw [(BitMap.find_some hf).2.2]
      rfl
  have hfind' : emptyTable.processes.execFilesMap.find =
      (some 0, oneProcess.execFilesMap.setBit 0) := hfind
  constructor
  · unfold Processes.exec
    rw [hfind]
    rfl
  · unfold ExecHistory.madeAfter
    rw [hfind']
    rfl

/-- The file of the process cannot be opened, and nobody has joined it: it has ended, and its slot
stays taken.  Two threads have joined one process: the second has come back, and the slot is free
while the first is still in `Join`. -/
theorem slots_not_conserved :
    (∃ h, ExecReach (fun _ => false) h ∧ h.processes.execFilesMap.isSet 0 = true ∧ ¬ h.InUse 0) ∧
    ∃ h, ExecReach (fun _ => true) h ∧ h.processes.execFilesMap.isSet 0 = false ∧ h.InUse 0 := by
  refine ⟨?_, ?_⟩
  · obtain ⟨hexec, hmade⟩ := emptyTable_exec
    let made : ℕ → Option (Fin ExecTableSize) := update (fun _ => none) 1 (some 0)
    have h₁ : ExecReach (fun _ => false) ⟨oneProcess.exec "a", made⟩ :=
      .step (.exec 0 "a") (.init emptyTable_init) ⟨rfl, hmade.symm⟩
    have h₂ : ExecReach (fun _ => false) ⟨(oneProcess.exec "a").goto 1 .ended, made⟩ := by
      refine .step (.start 1) h₁ ⟨?_, rfl⟩
      rw [hexec]
      rfl
    refine ⟨_, h₂, by simp [hexec], ?_⟩
    -- the only thread of the slot is thread 1, and nobody is in `Join`
    rintro ⟨t, ht, hlive | ⟨u, sem, hu⟩⟩
    · by_cases ht1 : t = 1
      · rw [ht1] at hlive
        exact hlive goto_threads_self
      · simp [made, ht1] at ht
    · have hplace : ∀ p, ((oneProcess.exec "a").goto 1 .ended).threads u = p →
          p = .ended ∨ p = .user ∨ p = .unborn := by
        rintro p rfl
        by_cases hu1 : u = 1
        · exact Or.inl (by rw [hu1]; exact goto_threads_self)
        · rw [goto_threads_of_ne hu1, hexec]
          refine Or.inr ?_
          dsimp only
          rw [update_of_ne hu1]
          by_cases hu0 : u = 0
          · exact Or.inl (if_pos hu0)
          · exact Or.inr (if_neg hu0)
      rcases hu with hu | hu <;> rcases hplace _ hu with hp | hp | hp <;> cases hp
  · obtain ⟨h, hr, hclear, hmade, hjoin⟩ : ∃ h, ExecReach (fun _ => true) h ∧
        h.processes.execFilesMap.isSet 0 = false ∧ h.made 1 = some 0 ∧
        h.processes.threads 0 = .joinWait 0 0 1 :=
      Reach.exists_run (fun _ _ _ => ExecHistory.perform_step)
        (.init emptyTable_init) [.exec 0 "a", .fork 0, .join 0 0, .join 2 0, .start 1, .exit 1,
          .wake 2, .finish 2] (by decide +kernel)
    exact ⟨h, hr, hclear, 1, hmade, Or.inr ⟨0, 0, Or.inl hjoin⟩⟩

end Nachos
