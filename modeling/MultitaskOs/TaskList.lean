import MultitaskOs.Lib.DList
import MultitaskOs.Task

/-!
# The task list

What the list of tasks is for, over whole runs of `task_new` and `task_free`,
and which frees `task_list_remove` gets right.
-/

open Lib Lib.Memory Lib.Run Lib.DList MultitaskOs.Paging MultitaskOs.Tasks

namespace MultitaskOs.TaskList

inductive Call where
  | new (process : Addr)
  | free (task : Addr)

/-- The kernel, with the live tasks in the order they were made. -/
structure State where
  kernel : Kernel
  live : List Addr

def call (s : State) : Call → State
  | .new process => ⟨(taskNew s.kernel process).1, s.live ++ [(taskNew s.kernel process).2]⟩
  | .free task => ⟨taskFree s.kernel task, s.live.erase task⟩

/-- Every request of a `task_new` succeeds; a `task_free` is on a live task. -/
def legal (s : State) : Call → Prop
  | .new process => (taskNew s.kernel process).1.heap.failures = s.kernel.heap.failures
  | .free task => task ∈ s.live

def next (k : Kernel) (t : Addr) : Addr := (k.tasks t).next

def prev (k : Kernel) (t : Addr) : Addr := (k.tasks t).prev

/-- The list from `task_head` to `task_tail` is `L`, linked both ways. -/
structure Linked (k : Kernel) (L : List Addr) : Prop where
  nodup : L.Nodup
  forward : Path (next k) k.task_head L 0
  backward : Back (prev k) 0 L
  tail : k.task_tail = L.getLast?.getD 0
  current : k.current_task ∈ L ∨ k.current_task = 0 ∧ L = []

/-- No link of a live task and none of the three globals points to a task that is gone. -/
structure NoDangling (k : Kernel) (L : List Addr) : Prop where
  next : ∀ t ∈ L, next k t = 0 ∨ next k t ∈ L
  prev : ∀ t ∈ L, prev k t = 0 ∨ prev k t ∈ L
  head : k.task_head = 0 ∨ k.task_head ∈ L
  tail : k.task_tail = 0 ∨ k.task_tail ∈ L
  current : k.current_task = 0 ∨ k.current_task ∈ L

def ListOk (s : State) : Prop := Linked s.kernel s.live ∧ NoDangling s.kernel s.live

theorem head?_getD_mem (L : List Addr) : L.head?.getD 0 = 0 ∨ L.head?.getD 0 ∈ L := by
  cases L <;> simp

theorem getLast?_getD_mem (L : List Addr) : L.getLast?.getD 0 = 0 ∨ L.getLast?.getD 0 ∈ L := by
  cases h : L.getLast? with
  | none => exact Or.inl rfl
  | some x => exact Or.inr (List.mem_of_getLast? h)

theorem Linked.noDangling {k : Kernel} {L : List Addr} (h : Linked k L) : NoDangling k L where
  next _ ht := h.forward.next_mem ht
  prev _ ht := h.backward.prev_mem ht
  head := h.forward.head_eq ▸ head?_getD_mem L
  tail := h.tail ▸ getLast?_getD_mem L
  current := h.current.elim Or.inr fun h => Or.inl h.1

theorem not_mem_before {L M : List Addr} {t : Addr} (h : (L ++ t :: M).Nodup) : t ∉ L := fun ht =>
  List.disjoint_of_nodup_append h ht List.mem_cons_self

/-! ## `task_new` -/

theorem linked_link_nil {k : Kernel} {t : Addr} (h : Linked k []) (hnext : next k t = 0)
    (hprev : prev k t = 0) : Linked (taskLink k t) [t] := by
  have hhead : k.task_head = 0 := h.forward
  have hk : taskLink k t = { k with task_head := t, task_tail := t, current_task := t } := by
    rw [taskLink, if_pos hhead]
  rw [hk]
  exact ⟨List.nodup_singleton t, ⟨rfl, hnext⟩, ⟨hprev, trivial⟩, rfl, Or.inl List.mem_cons_self⟩

theorem linked_link_concat {k : Kernel} {L : List Addr} {t last : Addr} (h : Linked k (L ++ [last]))
    (ht : t ∉ L ++ [last]) (h0 : k.task_head ≠ 0) (hnext : next k t = 0) :
    Linked (taskLink k t) (L ++ [last] ++ [t]) := by
  have htail : k.task_tail = last := by
    rw [h.tail]
    simp
  have hlast : last ≠ t := fun he => ht (he ▸ by simp)
  have hnd := h.nodup
  have hlast_notin : last ∉ L := not_mem_before hnd
  obtain ⟨hpath, hend⟩ := path_concat.mp h.forward
  have hnexts : ∀ a, next (taskLink k t) a = if a = last then t else next k a := by
    intro a
    rw [taskLink, if_neg h0, next]
    dsimp only
    rw [setTask_tasks]
    by_cases hat : a = t
    · rw [if_pos hat, setTask_tasks, htail, if_neg (Ne.symm hlast), if_neg (hat ▸ Ne.symm hlast), hat]
      rfl
    · rw [if_neg hat, setTask_tasks, htail]
      split <;> rfl
  have hprevs : ∀ a, prev (taskLink k t) a = if a = t then last else prev k a := by
    intro a
    rw [taskLink, if_neg h0, prev]
    dsimp only
    rw [setTask_tasks]
    split
    · exact htail
    · exact Kernel.setTask_field Task.prev rfl a
  have hglobals : (taskLink k t).task_head = k.task_head ∧ (taskLink k t).task_tail = t ∧
      (taskLink k t).current_task = k.current_task := by
    rw [taskLink, if_neg h0]
    exact ⟨rfl, rfl, rfl⟩
  refine ⟨?_, ?_, ?_, ?_, ?_⟩
  · rw [List.nodup_append]
    exact ⟨hnd, List.nodup_singleton t, fun a ha b hb he => ht (List.mem_singleton.mp hb ▸ he ▸ ha)⟩
  · rw [hglobals.1, path_concat, path_concat, hnexts, hnexts, if_pos rfl, if_neg (Ne.symm hlast)]
    refine ⟨⟨hpath.congr fun x hx => ?_, rfl⟩, hnext⟩
    have hxl : x ≠ last := fun he => hlast_notin (he ▸ hx)
    rw [hnexts, if_neg hxl]
  · rw [back_concat, hprevs, if_pos rfl]
    refine ⟨h.backward.congr fun x hx => ?_, by simp⟩
    have hxt : x ≠ t := fun he => ht (he ▸ hx)
    rw [hprevs, if_neg hxt]
  · rw [hglobals.2.1]
    simp
  · rw [hglobals.2.2]
    left
    rcases h.current with hc | ⟨_, hc⟩
    · exact List.mem_append_left _ hc
    · simp at hc

theorem Linked.link {k : Kernel} {L : List Addr} {t : Addr} (h : Linked k L) (ht : t ∉ L)
    (hL : ∀ u ∈ L, u ≠ 0) (hnext : next k t = 0) (hprev : prev k t = 0) :
    Linked (taskLink k t) (L ++ [t]) := by
  rcases List.eq_nil_or_concat' L with rfl | ⟨M, last, rfl⟩
  · exact linked_link_nil h hnext hprev
  · refine linked_link_concat h ht ?_ hnext
    rw [h.forward.head_eq]
    cases M with
    | nil => exact hL _ (by simp)
    | cons x M => exact hL _ (by simp)

/-! ## `task_free` -/

theorem taskListRemove_eq (k : Kernel) (t : Addr) :
    ∃ k1 : Kernel, (∀ a, next k1 a = if a = prev k t ∧ prev k t ≠ 0 then next k t else next k a) ∧
      (∀ a, prev k1 a = prev k a) ∧
      taskListRemove k t =
        { k1 with
          task_head := if t = k.task_head then next k t else k.task_head
          task_tail := if t = k.task_tail then prev k t else k.task_tail
          current_task :=
            if t = k.current_task then
              if next k t = 0 then if t = k.task_head then next k t else k.task_head else next k t
            else k.current_task } := by
  obtain ⟨k1, hk1⟩ : ∃ k1, k1 = if (k.tasks t).prev ≠ 0 then
      k.setTask (k.tasks t).prev fun x => { x with next := (k.tasks t).next } else k := ⟨_, rfl⟩
  have hnext : ∀ a, next k1 a = if a = prev k t ∧ prev k t ≠ 0 then next k t else next k a := by
    intro a
    rw [hk1]
    unfold next prev
    split
    · rename_i h
      rw [setTask_tasks]
      simp only [h, ne_eq, not_false_eq_true, and_true]
      split <;> rfl
    · rename_i h
      rw [if_neg fun hc => h hc.2]
  have hprev : ∀ a, prev k1 a = prev k a := by
    intro a
    rw [hk1]
    unfold prev
    split
    · exact Kernel.setTask_field Task.prev rfl a
    · rfl
  have hself : (k1.tasks t).next = next k t := by
    have := hnext t
    rw [ite_self] at this
    exact this
  have hglobals : k1.task_head = k.task_head ∧ k1.task_tail = k.task_tail ∧
      k1.current_task = k.current_task := by
    rw [hk1]
    split <;> exact ⟨rfl, rfl, rfl⟩
  obtain ⟨h1, h2, h3⟩ := hglobals
  refine ⟨k1, hnext, hprev, ?_⟩
  have hp : (k1.tasks t).prev = prev k t := hprev t
  rw [taskListRemove, ← hk1]
  unfold taskGetNext
  rw [← h1, ← h2, ← h3, ← hself, ← hp]
  clear hk1 hnext hprev h1 h2 h3 hself hp
  split_ifs <;> simp_all

theorem next_remove (k : Kernel) (t a : Addr) :
    next (taskListRemove k t) a = if a = prev k t ∧ prev k t ≠ 0 then next k t else next k a := by
  obtain ⟨k1, hn, -, he⟩ := taskListRemove_eq k t
  rw [he]
  exact hn a

theorem prev_remove (k : Kernel) (t a : Addr) : prev (taskListRemove k t) a = prev k a := by
  obtain ⟨k1, -, hp, he⟩ := taskListRemove_eq k t
  rw [he]
  exact hp a

theorem globals_remove (k : Kernel) (t : Addr) :
    (taskListRemove k t).task_head = (if t = k.task_head then next k t else k.task_head) ∧
    (taskListRemove k t).task_tail = (if t = k.task_tail then prev k t else k.task_tail) ∧
    (taskListRemove k t).current_task =
      if t = k.current_task then
        if next k t = 0 then if t = k.task_head then next k t else k.task_head else next k t
      else k.current_task := by
  obtain ⟨k1, -, -, he⟩ := taskListRemove_eq k t
  rw [he]
  exact ⟨rfl, rfl, rfl⟩

theorem Linked.congr {k k' : Kernel} {L : List Addr} (h : Linked k L) (htasks : k'.tasks = k.tasks)
    (hhead : k'.task_head = k.task_head) (htail : k'.task_tail = k.task_tail)
    (hcurrent : k'.current_task = k.current_task) : Linked k' L := by
  obtain ⟨hnodup, hforward, hbackward, hlast, hmem⟩ := h
  refine ⟨hnodup, ?_, ?_, by rw [htail, hlast], by rwa [hcurrent]⟩
  · unfold next
    rw [htasks, hhead]
    exact hforward
  · unfold prev
    rw [htasks]
    exact hbackward

theorem Linked.withKmem {k : Kernel} {L : List Addr} (h : Linked k L) (m : Kmem) :
    Linked { k with toKmem := m } L := h.congr rfl rfl rfl rfl

theorem linked_remove_only {k : Kernel} {t : Addr} (h : Linked k [t]) :
    Linked (taskListRemove k t) [] := by
  have hhead : k.task_head = t := h.forward.1
  have hnext : next k t = 0 := h.forward.2
  have hprev : prev k t = 0 := h.backward.1
  have htail : k.task_tail = t := h.tail
  have hcur : k.current_task = t := by
    rcases h.current with hc | ⟨_, hc⟩
    · exact List.mem_singleton.mp hc
    · cases hc
  obtain ⟨h1, h2, h3⟩ := globals_remove k t
  rw [hhead, if_pos rfl, hnext] at h1
  rw [htail, if_pos rfl, hprev] at h2
  rw [hcur, hhead, if_pos rfl, if_pos rfl, hnext, if_pos rfl] at h3
  exact ⟨List.nodup_nil, h1, trivial, h2, Or.inr ⟨h3, rfl⟩⟩

theorem linked_remove_last {k : Kernel} {L : List Addr} {u t : Addr} (h : Linked k (L ++ [u] ++ [t]))
    (hu : u ≠ 0) : Linked (taskListRemove k t) (L ++ [u]) := by
  have hnd := h.nodup
  rw [List.nodup_append] at hnd
  obtain ⟨hndL, -, hdisj⟩ := hnd
  have hne : ∀ x ∈ L ++ [u], x ≠ t := fun x hx => hdisj x hx t (by simp)
  have huL : u ∉ L := not_mem_before hndL
  obtain ⟨hpath, hnext⟩ := path_concat.mp h.forward
  obtain ⟨hback, hprev⟩ := back_concat.mp h.backward
  have hprev : prev k t = u := by simpa using hprev
  have hhead : k.task_head ∈ L ++ [u] := by
    rw [hpath.head_eq]
    cases L <;> simp
  have htail : k.task_tail = t := by simpa using h.tail
  obtain ⟨h1, h2, h3⟩ := globals_remove k t
  rw [if_neg (Ne.symm (hne _ hhead))] at h1 h3
  rw [if_pos htail.symm, hprev] at h2
  rw [hnext, if_pos rfl] at h3
  have hn : ∀ a, next (taskListRemove k t) a = if a = u then 0 else next k a := by
    intro a
    rw [next_remove, hprev, hnext]
    simp only [ne_eq, hu, not_false_eq_true, and_true]
  refine ⟨hndL, ?_, hback.congr fun x _ => prev_remove k t x, by simpa using h2, Or.inl ?_⟩
  · rw [h1, path_concat, hn, if_pos rfl]
    refine ⟨(path_concat.mp hpath).1.congr fun x hx => ?_, rfl⟩
    have hxu : x ≠ u := fun he => huL (he ▸ hx)
    rw [hn, if_neg hxu]
  · rw [h3]
    split
    · exact hhead
    · rename_i hcur
      rcases h.current with hc | ⟨_, hc⟩
      · rcases List.mem_append.mp hc with hc | hc
        · exact hc
        · exact absurd (List.mem_singleton.mp hc).symm hcur
      · simp at hc

theorem Linked.remove_last {k : Kernel} {L : List Addr} {t : Addr} (h : Linked k (L ++ [t]))
    (hL : ∀ u ∈ L, u ≠ 0) : Linked (taskListRemove k t) L := by
  rcases List.eq_nil_or_concat' L with rfl | ⟨M, u, rfl⟩
  · exact linked_remove_only h
  · exact linked_remove_last h (hL u (by simp))

theorem Linked.not_remove {k : Kernel} {L M : List Addr} {t u : Addr} (h : Linked k (L ++ t :: u :: M))
    (ht : t ≠ 0) : ¬ Linked (taskListRemove k t) (L ++ u :: M) := by
  intro h'
  have htL : t ∉ L := not_mem_before h.nodup
  exact not_back_erase h.backward htL ht
    (h'.backward.congr fun x _ => (prev_remove k t x).symm)

/-! ## Runs -/

/-- The condition: a `task_free` is on the task made last. -/
def FreesLast (s : State) : Call → Prop
  | .new _ => True
  | .free task => s.live.getLast? = some task

/-- A list that is right, over tasks that own their blocks. -/
structure Inv (s : State) : Prop where
  linked : Linked s.kernel s.live
  owned : ∃ dir, Owned s.kernel s.live dir

theorem Inv.ne_zero {s : State} (h : Inv s) : ∀ t ∈ s.live, t ≠ 0 := by
  obtain ⟨dir, ho⟩ := h.owned
  exact fun t ht => Kmem.live_ne_zero (ho.live t ht)

theorem Linked.new {k : Kernel} {L : List Addr} {m : Kmem} {t : Addr} {r : Task} {d : PageDir} (h : Linked k L)
    (hlive : ∀ u ∈ L, k.heap.Live u) (hn : NewTask k m t r d) :
    Linked (taskLink { k with toKmem := m, tasks := Function.update k.tasks t r } t) (L ++ [t]) := by
  have htL : t ∉ L := fun ht => hn.fresh (hlive t ht)
  have hsame : ∀ a ∈ L, Function.update k.tasks t r a = k.tasks a :=
    fun a ha => Function.update_of_ne (fun he : a = t => htL (he ▸ ha)) _ _
  have hk : Linked { k with toKmem := m, tasks := Function.update k.tasks t r } L := by
    refine ⟨h.nodup, h.forward.congr ?_, h.backward.congr ?_, h.tail, h.current⟩
    · intro a ha
      exact congrArg Task.next (hsame a ha)
    · intro a ha
      exact congrArg Task.prev (hsame a ha)
  refine hk.link htL (fun u hu => Kmem.live_ne_zero (hlive u hu)) ?_ ?_
  · rw [next]
    dsimp only
    rw [Function.update_self, hn.next]
  · rw [prev]
    dsimp only
    rw [Function.update_self, hn.prev]

theorem Inv.new {s : State} {process : Addr} (h : Inv s) (hl : legal s (.new process)) :
    Inv (call s (.new process)) := by
  obtain ⟨dir, ho⟩ := h.owned
  obtain ⟨m, t, r, d, hn, heq⟩ := taskNew_ok _ hl
  have hcall : call s (.new process) = ⟨taskLink { s.kernel with
      toKmem := m, tasks := Function.update s.kernel.tasks t r } t, s.live ++ [t]⟩ := by
    rw [call, heq]
  rw [hcall]
  exact ⟨h.linked.new ho.live hn, _, ho.new hn⟩

theorem Inv.free {s : State} {task : Addr} (h : Inv s) (hl : legal s (.free task))
    (hlast : FreesLast s (.free task)) : Inv (call s (.free task)) := by
  obtain ⟨dir, ho⟩ := h.owned
  refine ⟨?_, dir, ho.free h.linked.nodup hl⟩
  obtain ⟨L, hL⟩ := List.getLast?_eq_some_iff.mp hlast
  have hnot : task ∉ L := not_mem_before (hL ▸ h.linked.nodup)
  have herase : s.live.erase task = L := by
    rw [hL, List.erase_append_right _ hnot]
    simp
  have hk : Linked s.kernel (L ++ [task]) := hL ▸ h.linked
  rw [call, taskFree_eq, herase]
  exact (hk.remove_last fun u hu => h.ne_zero u (hL ▸ List.mem_append_left _ hu)).withKmem _

/-- A `task_free` on any other task breaks the list at once. -/
theorem Inv.not_free {s : State} {task : Addr} (h : Inv s) (hl : legal s (.free task))
    (hlast : ¬ FreesLast s (.free task)) : ¬ ListOk (call s (.free task)) := by
  obtain ⟨L, M, hL⟩ := List.append_of_mem (show task ∈ s.live from hl)
  cases M with
  | nil => exact absurd (List.getLast?_eq_some_iff.mpr ⟨L, hL⟩) hlast
  | cons u M =>
    have hnot : task ∉ L := not_mem_before (hL ▸ h.linked.nodup)
    have herase : s.live.erase task = L ++ u :: M := by
      rw [hL, List.erase_append_right _ hnot, List.erase_cons_head]
    have hk : Linked s.kernel (L ++ task :: u :: M) := hL ▸ h.linked
    rw [call, taskFree_eq, herase]
    intro hok
    exact hk.not_remove (h.ne_zero task hl) (hok.1.withKmem (taskListRemove s.kernel task).toKmem)

structure Empty (k : Kernel) : Prop where
  head : k.task_head = 0
  tail : k.task_tail = 0
  current : k.current_task = 0

theorem inv_empty {k : Kernel} (h : Empty k) : Inv ⟨k, []⟩ := by
  obtain ⟨d⟩ := exists_pageDir
  exact ⟨⟨List.nodup_nil, h.head, trivial, h.tail, Or.inr ⟨h.current, rfl⟩⟩, fun _ => d, owned_nil k _⟩

theorem task_list_iff {k : Kernel} (h : Empty k) (calls : List Call)
    (hlegal : Each call legal ⟨k, []⟩ calls) :
    Along call ListOk ⟨k, []⟩ calls ↔ Each call FreesLast ⟨k, []⟩ calls := by
  refine along_iff_each Inv ?_ ?_ ?_ (inv_empty h) hlegal
  · exact fun s hs => ⟨hs.linked, hs.linked.noDangling⟩
  · intro s c hs hc hok
    cases c with
    | new process => exact hs.new hc
    | free task => exact hs.free hc hok
  · intro s c hs hc hbad
    cases c with
    | new process => exact absurd trivial hbad
    | free task => exact hs.not_free hc hbad

/-! ## Two tasks -/

attribute [local irreducible] taskNew taskFree

def newNewFree (k : Kernel) : List Call := [.new 0, .new 0, .free (taskNew k 0).2]

theorem legal_newNewFree {k : Kernel} (h : Spare k.toKmem 2054) :
    Each call legal ⟨k, []⟩ (newNewFree k) := by
  obtain ⟨h1, hf1⟩ := taskNew_spare (n := 1027) h 0
  obtain ⟨-, hf2⟩ := taskNew_spare (n := 0) h1 0
  rw [newNewFree, each_cons, each_cons, each_cons]
  refine ⟨hf1, hf2, ?_, each_nil⟩
  simp [legal, call]

theorem newNewFree_breaks {k : Kernel} (he : Empty k) (h : Spare k.toKmem 2054) :
    ¬ Along call ListOk ⟨k, []⟩ (newNewFree k) := by
  obtain ⟨hl1, hl2, hl3, -⟩ := legal_newNewFree h
  have hinv : Inv (call (call ⟨k, []⟩ (.new 0)) (.new 0)) := ((inv_empty he).new hl1).new hl2
  rintro ⟨-, -, -, hbad⟩
  refine hinv.not_free hl3 ?_ hbad
  intro hlast
  have hnd := hinv.linked.nodup
  simp only [FreesLast, call, List.nil_append, List.cons_append, List.getLast?_cons_cons,
    List.getLast?_singleton, Option.some.injEq, List.nodup_cons, List.mem_singleton] at hlast hnd
  exact hnd.1 hlast.symm

theorem empty_emptyKernel : Empty emptyKernel := ⟨rfl, rfl, rfl⟩

theorem task_list_iff_newNewFree :
    Along call ListOk ⟨emptyKernel, []⟩ (newNewFree emptyKernel) ↔
      Each call FreesLast ⟨emptyKernel, []⟩ (newNewFree emptyKernel) :=
  task_list_iff empty_emptyKernel _ (legal_newNewFree (spare_emptyKmem (by omega)))

/-- The second task still links back to the first, which is gone. -/
theorem task_list_breaks :
    Each call legal ⟨emptyKernel, []⟩ (newNewFree emptyKernel) ∧
      ¬ Along call ListOk ⟨emptyKernel, []⟩ (newNewFree emptyKernel) :=
  ⟨legal_newNewFree (spare_emptyKmem (by omega)),
    newNewFree_breaks empty_emptyKernel (spare_emptyKmem (by omega))⟩

end MultitaskOs.TaskList
