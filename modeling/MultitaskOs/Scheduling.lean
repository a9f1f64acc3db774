import MultitaskOs.TaskList

/-!
# Round robin

Which tasks `task_get_next` selects, one after another.
-/

open Lib Lib.Memory Lib.Run Lib.DList MultitaskOs.Tasks MultitaskOs.TaskList

namespace MultitaskOs.Scheduling

/-- `task_switch(task_get_next())` -/
def schedule (k : Kernel) : Kernel := taskSwitch k (taskGetNext k)

def selects : Nat → Kernel → List Addr
  | 0, _ => []
  | n + 1, k => (schedule k).current_task :: selects n (schedule k)

inductive Step where
  | new (process : Addr)
  | schedule

/-- The kernel, with the live tasks in the order they were made. -/
def step (s : TaskList.State) : Step → TaskList.State
  | .new process => call s (.new process)
  | .schedule => { s with kernel := schedule s.kernel }

def succeeds (s : TaskList.State) : Step → Prop
  | .new process => legal s (.new process)
  | .schedule => True

/-! ## One round -/

/-- As many steps as there are tasks select each of them once, in the order they were made, from
behind the current task round to it. -/
def Round (s : TaskList.State) : Prop :=
  s.live.Nodup ∧ ∃ A B, s.live = A ++ s.kernel.current_task :: B ∧
    selects s.live.length s.kernel = B ++ A ++ [s.kernel.current_task]

/-- The task behind `t`, or the first one. -/
def follow (k : Kernel) (t : Addr) : Addr := if next k t = 0 then k.task_head else next k t

theorem selects_iterate (k : Kernel) (n : Nat) :
    selects n k = List.iterate (follow k) (follow k k.current_task) n := by
  induction n generalizing k with
  | zero => rfl
  | succ n ih =>
    -- a step looks at the links and the head, which it leaves alone
    have hfollow : follow (schedule k) = follow k := rfl
    rw [selects, ih, hfollow, List.iterate]
    rfl

theorem linked_round {k : Kernel} {A B : List Addr} (h : Linked k (A ++ k.current_task :: B))
    (hne : ∀ t ∈ A ++ k.current_task :: B, t ≠ 0) :
    selects (A ++ k.current_task :: B).length k = B ++ A ++ [k.current_task] := by
  rw [selects_iterate]
  exact h.forward.cycle hne

/-! ## Runs -/

/-- Live tasks in a list that is right. Without a task there is nothing to be current. -/
structure Inv (s : TaskList.State) : Prop where
  live : ∀ t ∈ s.live, s.kernel.heap.Live t
  linked : s.live ≠ [] → Linked s.kernel s.live
  empty : s.live = [] → s.kernel.task_head = 0 ∧ s.kernel.task_tail = 0

variable {s : TaskList.State}

theorem taskLink_first {k : Kernel} (h : k.task_head = 0) (c t : Addr) :
    taskLink { k with current_task := c } t = taskLink k t := by
  rw [taskLink, taskLink, if_pos h, if_pos h]

theorem Inv.new (h : Inv s) {process : Addr} (hl : legal s (.new process)) : Inv (call s (.new process)) := by
  obtain ⟨m, t, r, d, hn, heq⟩ := taskNew_ok _ hl
  have hcall : call s (.new process) = ⟨taskLink { s.kernel with
      toKmem := m, tasks := Function.update s.kernel.tasks t r } t, s.live ++ [t]⟩ := by
    rw [call, heq]
  rw [hcall]
  refine ⟨?_, fun _ => ?_, fun h0 => absurd h0 (by simp)⟩
  · dsimp only
    rw [taskLink_toKmem]
    intro u hu
    rcases List.mem_append.mp hu with hu | hu
    · exact hn.new.keeps.isLive (h.live u hu)
    · rw [List.mem_singleton.mp hu]
      exact hn.live
  · by_cases hnil : s.live = []
    · obtain ⟨hhead, htail⟩ := h.empty hnil
      have hlinked : Linked { s.kernel with current_task := 0 } [] :=
        ⟨List.nodup_nil, hhead, trivial, htail, Or.inr ⟨rfl, rfl⟩⟩
      have hnew := hlinked.new (by simp)
        ⟨hn.new, hn.live, hn.fresh, hn.not_block, hn.page_directory, hn.next, hn.prev⟩
      rw [hnil]
      rwa [← taskLink_first (k := { s.kernel with toKmem := m, tasks := Function.update s.kernel.tasks t r }) hhead 0]
    · exact (h.linked hnil).new h.live hn

theorem follow_mem {k : Kernel} {L : List Addr} (h : Linked k L) {t : Addr} (ht : t ∈ L) : follow k t ∈ L := by
  unfold follow
  split
  · rw [h.forward.head_eq]
    cases L with
    | nil => cases ht
    | cons x L => exact List.mem_cons_self
  · rename_i hn
    exact (h.forward.next_mem ht).resolve_left hn

theorem Inv.schedule (h : Inv s) : Inv (step s .schedule) := by
  refine ⟨h.live, fun hne => ?_, h.empty⟩
  have hlinked := h.linked hne
  refine ⟨hlinked.nodup, hlinked.forward, hlinked.backward, hlinked.tail, Or.inl ?_⟩
  rcases hlinked.current with hc | ⟨-, hnil⟩
  · exact follow_mem hlinked hc
  · exact absurd hnil hne

theorem Inv.step (h : Inv s) (a : Step) (hl : succeeds s a) : Inv (step s a) := by
  cases a with
  | new process => exact h.new hl
  | schedule => exact h.schedule

theorem inv_empty {k : Kernel} (h : Empty k) : Inv ⟨k, []⟩ :=
  ⟨by simp, fun hne => absurd rfl hne, fun _ => ⟨h.head, h.tail⟩⟩

theorem Inv.round (h : Inv s) (hne : s.live ≠ []) : Round s := by
  have hlinked := h.linked hne
  have hcurrent : s.kernel.current_task ∈ s.live := by
    rcases hlinked.current with hc | ⟨-, hnil⟩
    · exact hc
    · exact absurd hnil hne
  obtain ⟨A, B, hlive⟩ := List.append_of_mem hcurrent
  refine ⟨hlinked.nodup, A, B, hlive, ?_⟩
  rw [hlive] at hlinked ⊢
  exact linked_round hlinked fun t ht => Kmem.live_ne_zero (h.live t (hlive ▸ ht))

/-- For every interleaving from the empty list, wherever there is a task. -/
theorem round_robin {k : Kernel} (h : Empty k) (steps : List Step) (hlegal : Each step succeeds ⟨k, []⟩ steps) :
    Along step (fun s => s.live ≠ [] → Round s) ⟨k, []⟩ steps :=
  (along_of_inv (fun _ a hs ha => hs.step a ha) (inv_empty h) hlegal).mono fun _ hs => hs.round

attribute [local irreducible] taskNew

def twoTasks : List Step := [.new 0, .schedule, .new 0]

theorem succeeds_twoTasks {k : Kernel} (h : Spare k.toKmem 2054) : Each step succeeds ⟨k, []⟩ twoTasks := by
  obtain ⟨h1, hf1⟩ := taskNew_spare (n := 1027) h 0
  have h2 : Spare (schedule (taskNew k 0).1).toKmem (0 + 1027) := h1
  exact ⟨hf1, trivial, (taskNew_spare h2 0).2, trivial⟩

theorem round_robin_twoTasks :
    Along step (fun s => s.live ≠ [] → Round s) ⟨emptyKernel, []⟩ twoTasks :=
  round_robin empty_emptyKernel _ (succeeds_twoTasks (spare_emptyKmem (by omega)))

end MultitaskOs.Scheduling
