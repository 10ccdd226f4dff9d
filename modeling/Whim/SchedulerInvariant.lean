import Whim.SchedulerMoves
import Whim.Tally

/-!
# The bookkeeping of the scheduler

The queues, the flags, the counters and the heap tell the same story about every live task.
-/

namespace Whim.Scheduler

open Tally List

variable {H V : Type} {s s' : Scheduler H V} {id : TaskId} {task task' : Task H V}

/-- What the queues and the heap hold about a live task. -/
structure TaskSound (s : Scheduler H V) (id : TaskId) (task : Task H V) : Prop where
  queue : ∀ b, (s.queueOf b).count id = (task.queued && task.microtask == b).toNat
  requested : task.readyRequested = task.queued
  pending : task.queued = true → task.pending.isSome = true
  armed : ∀ g, task.timerGeneration = some g →
    g = task.generation ∧ ∃ timer ∈ s.timers, timer.task = id ∧ timer.generation = g

structure Sound (s : Scheduler H V) : Prop where
  ids : ∀ id, id ∈ s.tasks → id < s.nextId
  queues : ∀ b, ∀ id ∈ s.queueOf b, id < s.nextId
  tasks : ∀ id task, s.tasks.lookup id = some task → TaskSound s id task
  referenced : s.referencedTasks.toNat = count (·.referenced) s.tasks
  live : s.liveTimers.toNat = count (·.timerGeneration.isSome) s.tasks

theorem sound_new (idle : V) : Sound (new idle : Scheduler H V) where
  ids id h := absurd h (AList.notMem_empty id)
  queues b id h := by cases b <;> simp [new,queueOf] at h
  tasks id task h := by simp [new] at h
  referenced := rfl
  live := rfl

theorem mem_tasks (hid : s.tasks.lookup id = some task) : id ∈ s.tasks := AList.lookup_isSome.mp (by rw [hid]; rfl)

theorem Sound.forget (h : Sound s) (hforgets : Forgets s s') : Sound s' where
  ids id hid := by
    rw [hforgets.tasks] at hid
    rw [hforgets.nextId]
    exact h.ids id hid
  queues b id hid := by
    rw [hforgets.queues] at hid
    rw [hforgets.nextId]
    exact h.queues b id hid
  tasks id task hid := by
    rw [hforgets.tasks] at hid
    have ht := h.tasks id task hid
    refine ⟨by rw [hforgets.queues]; exact ht.queue,ht.requested,ht.pending,fun g hg => ?_⟩
    obtain ⟨hgeneration,t,hmem,htask,htimer⟩ := ht.armed g hg
    have hlive : isLive s.tasks t = true :=
      isLive_iff.mpr ⟨task,by rw [htask]; exact hid,by rw [htimer,hgeneration],by rw [htimer,hg]⟩
    exact ⟨hgeneration,t,hforgets.keeps t hmem hlive,htask,htimer⟩
  referenced := by rw [hforgets.referenced,hforgets.tasks]; exact h.referenced
  live := by rw [hforgets.live,hforgets.tasks]; exact h.live

theorem Sound.count_lt (h : Sound s) (p : Task H V → Bool) : count p s.tasks ≤ s.nextId.toNat :=
  count_le (f := UInt64.toNat) (fun _ _ => UInt64.toNat_inj.mp) fun id hid => UInt64.lt_iff_toNat_lt.mp (h.ids id hid)

/-! ## Counters -/

theorem toNat_toUInt64 (b : Bool) : b.toUInt64.toNat = b.toNat := by cases b <;> rfl

variable {n : UInt64} {b : Bool}

theorem toNat_sub_bool {k : ℕ} (h : k+b.toNat = n.toNat) : (n-b.toUInt64).toNat = k := by
  have hle : b.toUInt64 ≤ n := by
    rw [UInt64.le_iff_toNat_le,toNat_toUInt64,← h]
    exact Nat.le_add_left _ k
  rw [UInt64.toNat_sub_of_le _ _ hle,toNat_toUInt64,← h,Nat.add_sub_cancel]

theorem toNat_add_bool (h : n.toNat+b.toNat < 2 ^ 64) : (n+b.toUInt64).toNat = n.toNat+b.toNat := by
  rw [UInt64.toNat_add,toNat_toUInt64]
  exact Nat.mod_eq_of_lt h

/-- A counter that follows the tasks with a property follows the change of one of them. -/
theorem counter_change {p : Task H V → Bool} (hid : s.tasks.lookup id = some task)
    (hn : n.toNat = count p s.tasks) (hlt : count p (s.tasks.insert id task') < 2 ^ 64) :
    (n-(p task).toUInt64+(p task').toUInt64).toNat = count p (s.tasks.insert id task') := by
  have herase := count_erase (p := p) hid
  have hinsert := count_insert (p := p) (w := task') hid
  have hsub : (n-(p task).toUInt64).toNat = count p (s.tasks.erase id) := toNat_sub_bool (by omega)
  rw [toNat_add_bool (by omega)]
  omega

/-! ## Changes of one task -/

/-- The change of one live task, with what goes with it in the queues and the heap. -/
theorem Sound.change (h : Sound s) (hid : s.tasks.lookup id = some task)
    (htasks : s'.tasks = s.tasks.insert id task') (hnext : s'.nextId = s.nextId)
    (hreferenced : s'.referencedTasks = s.referencedTasks-task.referenced.toUInt64+task'.referenced.toUInt64)
    (hlive : s'.liveTimers = s.liveTimers-task.timerGeneration.isSome.toUInt64+task'.timerGeneration.isSome.toUInt64)
    (hqueues : ∀ b, ∀ j ∈ s'.queueOf b, j = id ∨ j ∈ s.queueOf b)
    (hcount : ∀ b j, j ≠ id → (s'.queueOf b).count j = (s.queueOf b).count j)
    (htimers : ∀ timer ∈ s.timers, timer.task ≠ id → timer ∈ s'.timers) (htask : TaskSound s' id task') : Sound s' := by
  have hids : ∀ j, j ∈ s'.tasks → j < s'.nextId := by
    intro j hj
    rw [htasks,AList.mem_insert] at hj
    rw [hnext]
    rcases hj with rfl | hj
    · exact h.ids j (mem_tasks hid)
    · exact h.ids j hj
  have hlt (p : Task H V → Bool) : count p (s.tasks.insert id task') < 2 ^ 64 := by
    have hle : count p s'.tasks ≤ s'.nextId.toNat :=
      count_le (f := UInt64.toNat) (fun _ _ => UInt64.toNat_inj.mp) fun j hj =>
        UInt64.lt_iff_toNat_lt.mp (hids j hj)
    rw [htasks] at hle
    exact lt_of_le_of_lt hle s'.nextId.toNat_lt
  refine ⟨hids,?_,?_,?_,?_⟩
  · intro b j hj
    rw [hnext]
    rcases hqueues b j hj with rfl | hj
    · exact h.ids j (mem_tasks hid)
    · exact h.queues b j hj
  · intro j o hj
    rw [htasks] at hj
    by_cases hne : j = id
    · subst hne
      rw [AList.lookup_insert] at hj
      cases hj
      exact htask
    · rw [AList.lookup_insert_ne hne] at hj
      have ht := h.tasks j o hj
      refine ⟨fun b => by rw [hcount b j hne]; exact ht.queue b,ht.requested,ht.pending,fun g hg => ?_⟩
      obtain ⟨hgeneration,timer,htimer,rfl,htg⟩ := ht.armed g hg
      exact ⟨hgeneration,timer,htimers timer htimer hne,rfl,htg⟩
  · rw [hreferenced,htasks]
    exact counter_change (p := fun t : Task H V => t.referenced) hid h.referenced (hlt _)
  · rw [hlive,htasks]
    exact counter_change (p := fun t : Task H V => t.timerGeneration.isSome) hid h.live (hlt _)

/-- The change of a task's own data, with the queues as they are. -/
theorem Sound.changeTask (h : Sound s) (hid : s.tasks.lookup id = some task) {timers : List Timer}
    (htimers : ∀ t ∈ s.timers, t.task ≠ id → t ∈ timers)
    (hq : task'.queued = task.queued) (hm : task'.microtask = task.microtask)
    (hr : task'.readyRequested = task.readyRequested) (hp : task.queued → task'.pending.isSome)
    (harmed : ∀ g, task'.timerGeneration = some g →
      g = task'.generation ∧ ∃ t ∈ timers, t.task = id ∧ t.generation = g) :
    Sound { s.change id task task' with timers := timers } := by
  have ht := h.tasks id task hid
  refine h.change hid rfl rfl rfl rfl (fun _ _ hj => .inr hj) (fun _ _ _ => rfl) htimers ?_
  refine ⟨fun b => ?_,?_,fun hqueued => hp (hq ▸ hqueued),harmed⟩
  · rw [hq,hm]
    exact ht.queue b
  · rw [hr,hq]
    exact ht.requested

variable {queue : List TaskId}

/-- The change of a task's flags together with its queue. -/
theorem Sound.changeQueue (h : Sound s) (hid : s.tasks.lookup id = some task)
    (hm : task.microtask = b) (hm' : task'.microtask = b) (hqueues : ∀ j ∈ queue, j = id ∨ j ∈ s.queueOf b)
    (hcount : ∀ j, j ≠ id → queue.count j = (s.queueOf b).count j)
    (hself : queue.count id = task'.queued.toNat) (hr : task'.readyRequested = task'.queued)
    (hp : task'.queued → task'.pending.isSome) (hreferenced : task'.referenced = task.referenced)
    (hg : task'.generation = task.generation) (ht : task'.timerGeneration = task.timerGeneration) :
    Sound ((s.setTask id task').setQueue b queue) := by
  have hsound := h.tasks id task hid
  have htasks : ((s.setTask id task').setQueue b queue).tasks = s.tasks.insert id task' := by simp [setTask]
  refine h.change hid htasks (by simp [setTask]) (by simp [setTask,hreferenced]) (by simp [setTask,ht]) ?_ ?_ ?_ ?_
  · intro c j hj
    rw [queueOf_setQueue] at hj
    by_cases hc : c = b
    · rw [if_pos hc] at hj
      rw [hc]
      exact hqueues j hj
    · rw [if_neg hc] at hj
      exact .inr hj
  · intro c j hj
    rw [queueOf_setQueue]
    by_cases hc : c = b
    · rw [if_pos hc,hc,hcount j hj]
    · rw [if_neg hc]
      rfl
  · intro t hmem _
    rw [timers_setQueue]
    exact hmem
  · refine ⟨fun c => ?_,hr,hp,fun g hgeneration => ?_⟩
    · rw [queueOf_setQueue]
      by_cases hc : c = b
      · rw [if_pos hc,hself,hm',hc]
        simp
      have hne : (b == c) = false := by simpa using Ne.symm hc
      rw [if_neg hc,hm',hne,Bool.and_false]
      have hz := hsound.queue c
      rw [hm,hne,Bool.and_false] at hz
      exact hz
    · rw [ht] at hgeneration
      simpa [hg,setTask] using hsound.armed g hgeneration

/-! ## Moves -/

theorem lt_succ (h : n.toNat+1 < 2 ^ 64) : n < n+1 := by
  rw [UInt64.lt_iff_toNat_lt,UInt64.toNat_add]
  exact lt_of_lt_of_eq (Nat.lt_succ_self _) (Nat.mod_eq_of_lt h).symm

theorem Sound.insertTask (h : Sound s) (hnext : s.nextId.toNat+1 < 2 ^ 64) (coroutine : H)
    (args : List V) (m : Bool) : Sound (s.insertTask coroutine args m).1 := by
  have hlt {id : TaskId} (hid : id < s.nextId) : id < s.nextId+1 := UInt64.lt_trans hid (lt_succ hnext)
  have hn : s.tasks.lookup s.nextId = none :=
    AList.lookup_eq_none.mpr fun hmem => absurd (h.ids s.nextId hmem) (UInt64.lt_irrefl _)
  refine ⟨?_,?_,?_,?_,?_⟩
  · intro id hid
    rcases (AList.mem_insert s.tasks).mp hid with rfl | hid
    · exact lt_succ hnext
    · exact hlt (h.ids id hid)
  · exact fun b id hid => hlt (h.queues b id hid)
  · intro id task hid
    by_cases hne : id = s.nextId
    · subst hne
      cases (AList.lookup_insert s.tasks).symm.trans hid
      refine ⟨fun b => ?_,rfl,by simp,by simp⟩
      exact count_eq_zero.mpr fun hmem => absurd (h.queues b _ hmem) (UInt64.lt_irrefl _)
    · have ht := h.tasks id task ((AList.lookup_insert_ne hne).symm.trans hid)
      exact ⟨ht.queue,ht.requested,ht.pending,ht.armed⟩
  · have hle := h.count_lt (·.referenced)
    have hreferenced := h.referenced
    have hcount := count_insert_new (p := fun task : Task H V => task.referenced)
      (v := ⟨coroutine,some (.start args),false,m,true,false,0,none⟩) hn
    have hadd := toNat_add_bool (n := s.referencedTasks) (b := true) (by simp only [Bool.toNat_true]; omega)
    exact (hadd.trans (by rw [hreferenced])).trans hcount.symm
  · have hcount := count_insert_new (p := fun task : Task H V => task.timerGeneration.isSome)
      (v := ⟨coroutine,some (.start args),false,m,true,false,0,none⟩) hn
    exact h.live.trans hcount.symm

theorem Sound.removeTask (h : Sound s) (hid : s.tasks.lookup id = some task) : Sound { s with
      tasks := s.tasks.erase id
      referencedTasks := s.referencedTasks-task.referenced.toUInt64
      liveTimers := s.liveTimers-task.timerGeneration.isSome.toUInt64 } where
  ids j hj := h.ids j (AList.mem_erase.mp hj).2
  queues := h.queues
  tasks j other hj := by
    have hne : j ≠ id := by
      rintro rfl
      rw [AList.lookup_erase] at hj
      cases hj
    have ht := h.tasks j other ((AList.lookup_erase_ne hne).symm.trans hj)
    exact ⟨ht.queue,ht.requested,ht.pending,ht.armed⟩
  referenced := toNat_sub_bool ((count_erase (p := fun t : Task H V => t.referenced) hid).trans h.referenced.symm)
  live := toNat_sub_bool ((count_erase (p := fun t : Task H V => t.timerGeneration.isSome) hid).trans h.live.symm)

theorem Sound.mark (h : Sound s) (hid : s.tasks.lookup id = some task) (hp : task.pending.isSome)
    (f : Bool) : Sound (s.markQueuedWithPriority id f) := by
  have ht := h.tasks id task hid
  unfold markQueuedWithPriority
  rw [hid]
  dsimp only
  by_cases hq : task.queued = true
  · have hset : Sound ((s.setTask id { task with readyRequested := true, queued := true }).setQueue
        task.microtask (s.queueOf task.microtask)) :=
      h.changeQueue hid rfl rfl (fun j hj => .inr hj) (fun j hj => rfl) (by rw [ht.queue,hq]; simp) rfl
        (fun _ => hp) rfl rfl rfl
    rw [if_pos hq]
    rwa [← queueOf_setTask,setQueue_queueOf] at hset
  · have hfalse : task.queued = false := by simpa using hq
    have hz : (s.queueOf task.microtask).count id = 0 := by rw [ht.queue,hfalse]; rfl
    rw [if_neg hq,pushQueue_eq,queueOf_setTask]
    refine h.changeQueue hid rfl rfl ?_ ?_ ?_ rfl (fun _ => hp) rfl rfl rfl
    · intro j hj
      cases f
      · simpa [or_comm] using hj
      · simpa using hj
    · intro j hj
      cases f
      · simp [Ne.symm hj]
      · exact count_cons_of_ne (Ne.symm hj)
    · cases f
      · simp [hz]
      · simp [hz]

section
variable (h : Sound s) (hqueue : s.queueOf b = id::queue)
include h hqueue

/-- The next entry of a queue is a task that is queued there. -/
theorem Sound.head
    (hid : s.tasks.lookup id = some task) : task.queued ∧ task.microtask = b ∧ queue.count id = 0 := by
  have hcount := (h.tasks id task hid).queue b
  rw [hqueue,count_cons_self] at hcount
  cases hq : task.queued with
  | false =>
    rw [hq] at hcount
    cases hcount
  | true =>
    by_cases hm : task.microtask = b
    · refine ⟨rfl,hm,?_⟩
      rw [hq,hm] at hcount
      simpa using hcount
    · have hne : (task.microtask == b) = false := by simpa using hm
      rw [hq,hne] at hcount
      cases hcount

theorem Sound.not_discarded
    (hid : s.tasks.lookup id = some task) : ¬(task.readyRequested = false ∨ task.pending = none) := by
  have hq := (h.head hqueue hid).1
  have ht := h.tasks id task hid
  rintro (hready | hpending)
  · rw [ht.requested,hq] at hready
    cases hready
  · have hsome := ht.pending hq
    rw [hpending] at hsome
    cases hsome

theorem Sound.skip (hid : s.tasks.lookup id = none) : Sound (s.setQueue b queue) where
  ids j hj := by
    rw [tasks_setQueue] at hj
    rw [nextId_setQueue]
    exact h.ids j hj
  queues c j hj := by
    rw [nextId_setQueue]
    rw [queueOf_setQueue] at hj
    by_cases hc : c = b
    · rw [if_pos hc] at hj
      exact h.queues b j (by rw [hqueue]; exact mem_cons_of_mem id hj)
    · rw [if_neg hc] at hj
      exact h.queues c j hj
  tasks j other hj := by
    rw [tasks_setQueue] at hj
    have hne : j ≠ id := by
      rintro rfl
      rw [hid] at hj
      cases hj
    have ht := h.tasks j other hj
    refine ⟨fun c => ?_,ht.requested,ht.pending,by simpa using ht.armed⟩
    have hcount := ht.queue c
    rw [queueOf_setQueue]
    by_cases hc : c = b
    · rw [hc,hqueue,count_cons_of_ne (Ne.symm hne)] at hcount
      rw [if_pos hc,hc,hcount]
    · rw [if_neg hc,hcount]
  referenced := by rw [referencedTasks_setQueue,tasks_setQueue]; exact h.referenced
  live := by rw [liveTimers_setQueue,tasks_setQueue]; exact h.live

end

theorem Sound.move {guarded : Prop} {events : List (Event V)} (h : Sound s) (hmove : Move True guarded s events s') :
    Sound s' := by
  cases hmove with
  | forget hforgets => exact h.forget hforgets
  | insert hnext coroutine args m => exact h.insertTask (hnext trivial) coroutine args m
  | remove hid => exact h.removeTask hid
  | @arm id task hid =>
    refine h.changeTask hid ?_ rfl rfl rfl (h.tasks id task hid).pending ?_
    · exact fun t hmem _ => (mem_orderedInsert Timer.le).mpr (.inr hmem)
    intro g hg
    cases hg
    exact ⟨rfl,_,(mem_orderedInsert Timer.le).mpr (.inl rfl),rfl,rfl⟩
  | renew hid => exact h.changeTask hid (fun _ hmem _ => hmem) rfl rfl rfl (fun _ => rfl) (by simp [Task.renewed])
  | mark hid hp _ f => exact h.mark hid hp f
  | @expire t _ task htimers hid =>
    refine h.changeTask hid ?_ rfl rfl rfl (h.tasks t.task task hid).pending (by simp)
    intro o hmem hne
    rw [htimers] at hmem
    rcases mem_cons.mp hmem with rfl | hmem
    · exact absurd rfl hne
    · exact hmem
  | @refer id task hid =>
    have ht := h.tasks id task hid
    exact h.changeTask hid (fun _ hmem _ => hmem) rfl rfl rfl ht.pending ht.armed
  | @skip _ _ _ hqueue hid => exact h.skip hqueue hid
  | discard hqueue hid hidle => exact absurd hidle (h.not_discarded hqueue hid)
  | @activate id _ _ _ _ hqueue hid =>
    obtain ⟨hq,hm,hz⟩ := h.head hqueue hid
    refine h.changeQueue hid hm hm ?_ ?_ hz rfl (by simp [Task.dequeued]) rfl rfl rfl
    · exact fun j hj => .inr (by rw [hqueue]; exact mem_cons_of_mem id hj)
    · intro j hj
      rw [hqueue,count_cons_of_ne (Ne.symm hj)]

end Whim.Scheduler
