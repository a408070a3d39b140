/-
The slots of the connections (`accept_loop`, `get_conn`, `htloop`, `closeconnect`).

`get_conn` reserves a slot when it writes an id into it, `accept_loop` fills the slot and starts a thread, and that
thread gives it back at the end of `closeconnect`. The thread of `accept_loop` and the threads of the connections take
turns. Where `tcp_accept` fails, or where no thread starts, nobody is left who gives the slot back.
-/

import NullG.Nsp.Opcodes
import Mathlib.Data.List.Perm.Subperm
import Mathlib.Data.List.Basic

namespace NullG.Httpd.Slots

/-- A slot of `htproc.conn`, as far as it is read here. -/
structure Slot where
  id : Nat := 0
  /-- `dat` is allocated -/
  dat : Bool := false
  socket : Int := 0
  deriving DecidableEq

/-- Where the thread of `accept_loop` is. -/
inductive Listener where
  /-- at `select` -/
  | selecting
  /-- in `get_conn`, which looks at a slot next -/
  | scanning (i : Nat)
  /-- at `tcp_accept`, with a slot -/
  | accepting (i : Nat)
  /-- at `pthread_create`, with a slot -/
  | starting (i : Nat)
  /-- `accept_loop` has returned -/
  | ended
  deriving DecidableEq

/-- Where the thread of a connection is. -/
inductive Phase where
  /-- at the start of `htloop` -/
  | begun
  /-- its id is in the slot -/
  | serving
  /-- in `closeconnect`, behind `memset` -/
  | cleared
  deriving DecidableEq

/-- The state of the server: the slots, and the threads with the slot that each of them was started for. -/
structure Server where
  conn : List Slot
  listener : Listener := .selecting
  threads : List (Nat × Phase) := []
  deriving DecidableEq

/-- How `tcp_accept` ends. -/
inductive Accepted where
  | socket (fd : Nat)
  /-- -1, with `EINTR` or `EWOULDBLOCK` -/
  | interrupted
  /-- -1, with another error -/
  | failed
  deriving DecidableEq

/-- A step of a thread. -/
inductive Event where
  /-- a listening socket of the module is readable -/
  | select
  /-- `get_conn` looks at a slot -/
  | look
  | accept (result : Accepted)
  /-- `pthread_create` returns `rc` -/
  | create (rc : Int)
  /-- the thread writes what `pthread_self` returns -/
  | self (k tid : Nat)
  /-- the thread serves a request -/
  | request (k : Nat)
  /-- the thread is in `closeconnect` up to `memset` -/
  | close (k exitflag : Nat)
  /-- the thread ends -/
  | exit (k : Nat)
  deriving DecidableEq

/-- `closeconnect` up to `memset`: what it leaves in the slot, and whether the thread ends. -/
def closeconnect (exitflag : Nat) (slot : Slot) : Slot × Bool :=
  if exitflag = 0 then ({ slot with socket := -1 }, false) else ({}, true)

/-- The slot of `get_conn`: the index starts again behind the last slot. -/
def wrap (n i : Nat) : Nat := if n ≤ i then 0 else i

/-- A look of `get_conn` at a slot. There is none if the array has no slots. -/
def look (i : Nat) (s : Server) : Option Server :=
  let i := wrap s.conn.length i
  match s.conn[i]? with
  | none => none
  | some slot =>
      if slot.id = 0 then some { s with conn := s.conn.set i { id := 1 }, listener := .accepting i }
      else some { s with listener := .scanning (i + 1) }

/-- A step of the server. A result of -1 of `pthread_create` ends the process. -/
def step : Event → Server → Option Server
  | .select, s =>
      match s.listener with
      | .selecting => some { s with listener := .scanning 0 }
      | _ => none
  | .look, s =>
      match s.listener with
      | .scanning i => look i s
      | _ => none
  | .accept result, s =>
      match s.listener with
      | .accepting i =>
          match result with
          | .socket fd =>
              some { s with conn := s.conn.modify i ({ · with socket := fd }), listener := .starting i }
          | .interrupted => some { s with listener := .selecting }
          | .failed => some { s with listener := .ended }
      | _ => none
  | .create rc, s =>
      match s.listener with
      | .starting i =>
          if rc = -1 then none
          else if rc = 0 then some { s with threads := s.threads ++ [(i, .begun)], listener := .selecting }
          else some { s with listener := .selecting }
      | _ => none
  | .self k tid, s =>
      match s.threads[k]? with
      | some (i, .begun) =>
          -- no thread has the id 0
          if tid = 0 then none
          else some { s with
            conn := s.conn.modify i ({ · with id := tid }), threads := s.threads.set k (i, .serving) }
      | _ => none
  | .request k, s =>
      match s.threads[k]? with
      | some (i, .serving) => some { s with conn := s.conn.modify i ({ · with dat := true }) }
      | _ => none
  | .close k exitflag, s =>
      match s.threads[k]? with
      | some (i, .serving) =>
          some { s with
            conn := s.conn.modify i fun slot => (closeconnect exitflag slot).1
            threads := if exitflag = 0 then s.threads else s.threads.set k (i, .cleared) }
      | _ => none
  | .exit k, s =>
      match s.threads[k]? with
      | some (i, .cleared) =>
          some { s with conn := s.conn.modify i ({ · with socket := -1 }), threads := s.threads.eraseIdx k }
      | _ => none

/-- The steps one behind the other, if all of them can be taken. -/
def run : Server → List Event → Option Server
  | s, [] => some s
  | s, e :: es => (step e s).bind fun t => run t es

/-- The server behind `mod_init`. -/
def idle (maxconn : Nat) : Server := { conn := List.replicate maxconn { socket := -1 } }

/-! ### What holds of the slots -/

/-- The slot that is being accepted into. -/
def Listener.slot : Listener → Option Nat
  | .accepting i => some i
  | .starting i => some i
  | _ => none

/-- The slot that a thread serves. -/
def served : Nat × Phase → Option Nat
  | (i, .begun) => some i
  | (i, .serving) => some i
  | (_, .cleared) => none

/-- The slots of the connections that are being accepted or served. -/
def Server.active (s : Server) : List Nat := s.listener.slot.toList ++ s.threads.filterMap served

/-- `get_conn` looks at `n` slots, and no other thread takes a step. -/
def looks : Nat → Server → Option Server
  | 0, s => some s
  | n + 1, s => (step .look s).bind (looks n)

/-- `get_conn` finds a free slot. -/
def Server.Finds (s : Server) : Prop := ∃ n t i, looks n s = some t ∧ t.listener = .accepting i

/-- There is an id in the slot. -/
def Taken (conn : List Slot) (i : Nat) : Prop := ∃ slot, conn[i]? = some slot ∧ slot.id ≠ 0

/-- The slots that are taken are those of the connections that are being accepted or served, one for each. -/
structure Server.Exact (s : Server) : Prop where
  apart : s.active.Nodup
  taken_iff : ∀ i, Taken s.conn i ↔ i ∈ s.active

/-- No slot is lost. So if there are fewer connections than slots, then `get_conn` finds a free slot wherever it is. -/
structure Server.NotLeaked (s : Server) : Prop where
  exact : s.Exact
  finds : s.active.length < s.conn.length → ∀ i, s.listener = .scanning i → s.Finds

/-- A step that ends a connection, and does not give its slot back. -/
def Event.fails : Event → Bool
  | .accept (.socket _) => false
  | .accept _ => true
  | .create rc => rc != 0
  | _ => false

/-! ### Slots that are written -/

section

variable {conn : List Slot} {slot : Slot} {f : Slot → Slot} {i j : Nat}

theorem taken_modify_of_ne (h : i ≠ j) : Taken (conn.modify i f) j ↔ Taken conn j := by
  unfold Taken
  rw [List.getElem?_modify]
  simp [h]

theorem taken_modify_self : Taken (conn.modify i f) i ↔ ∃ slot, conn[i]? = some slot ∧ (f slot).id ≠ 0 := by
  unfold Taken
  rw [List.getElem?_modify]
  simp

theorem taken_modify (hf : ∀ slot, (f slot).id = slot.id) : Taken (conn.modify i f) j ↔ Taken conn j := by
  by_cases h : i = j
  · subst h
    rw [taken_modify_self]
    simp only [hf]
    rfl
  · exact taken_modify_of_ne h

/-- A slot that is taken gets another id. -/
theorem taken_modify_id (hi : Taken conn i) (hf : ∀ slot, (f slot).id ≠ 0) :
    Taken (conn.modify i f) j ↔ Taken conn j := by
  by_cases h : i = j
  · subst h
    rw [taken_modify_self]
    obtain ⟨slot, hslot, hid⟩ := hi
    exact ⟨fun _ => ⟨slot, hslot, hid⟩, fun _ => ⟨slot, hslot, hf slot⟩⟩
  · exact taken_modify_of_ne h

/-- A slot is cleared. -/
theorem taken_modify_clear (hf : ∀ slot, (f slot).id = 0) :
    Taken (conn.modify i f) j ↔ Taken conn j ∧ j ≠ i := by
  by_cases h : i = j
  · subst h
    rw [taken_modify_self]
    simp [hf]
  · rw [taken_modify_of_ne h]
    exact ⟨fun htaken => ⟨htaken, Ne.symm h⟩, And.left⟩

theorem taken_set (hi : i < conn.length) (hid : slot.id ≠ 0) :
    Taken (conn.set i slot) j ↔ Taken conn j ∨ j = i := by
  unfold Taken
  by_cases h : i = j
  · subst h
    simp [hi, hid]
  · rw [List.getElem?_set_ne h]
    simp [Ne.symm h]

/-- What the threads before a thread serve, and those behind it. -/
theorem served_threads {threads : List (Nat × Phase)} {k : Nat} {x : Nat × Phase} (h : threads[k]? = some x) :
    ∃ before behind, threads.filterMap served = before ++ (served x).toList ++ behind ∧
      (∀ y, (threads.set k y).filterMap served = before ++ (served y).toList ++ behind) ∧
      (threads.eraseIdx k).filterMap served = before ++ behind := by
  obtain ⟨hk, hx⟩ := List.getElem?_eq_some_iff.mp h
  have hone : ∀ y, [y].filterMap served = (served y).toList := by
    intro y
    cases hy : served y <;> simp [hy]
  have hset : ∀ y, (threads.set k y).filterMap served =
      (threads.take k).filterMap served ++ (served y).toList ++ (threads.drop (k + 1)).filterMap served := by
    intro y
    rw [List.set_eq_take_append_cons_drop, if_pos hk, ← List.singleton_append, List.filterMap_append,
      List.filterMap_append, hone, List.append_assoc]
  refine ⟨(threads.take k).filterMap served, (threads.drop (k + 1)).filterMap served, ?_, hset, ?_⟩
  · rw [← hset, ← hx, List.set_getElem_self]
  · rw [List.eraseIdx_eq_take_drop_succ, List.filterMap_append]

end

/-! ### Steps -/

section

variable {s t : Server} {i : Nat} {e : Event}

/-- The same slots are taken, by the same connections. -/
theorem Server.Exact.same (h : s.Exact) (hactive : t.active.Perm s.active)
    (htaken : ∀ j, Taken t.conn j ↔ Taken s.conn j) : t.Exact where
  apart := hactive.nodup_iff.mpr h.apart
  taken_iff j := by rw [htaken, h.taken_iff, hactive.mem_iff]

/-- A free slot is taken. -/
theorem Server.Exact.reserve (h : s.Exact) (hactive : t.active.Perm (i :: s.active)) (hfree : ¬ Taken s.conn i)
    (htaken : ∀ j, Taken t.conn j ↔ Taken s.conn j ∨ j = i) : t.Exact where
  apart := hactive.nodup_iff.mpr (List.nodup_cons.mpr ⟨fun hmem => hfree ((h.taken_iff i).mpr hmem), h.apart⟩)
  taken_iff j := by rw [htaken, h.taken_iff, hactive.mem_iff, List.mem_cons, Or.comm]

/-- A slot is given back. -/
theorem Server.Exact.giveBack (h : s.Exact) (hactive : s.active.Perm (i :: t.active))
    (htaken : ∀ j, Taken t.conn j ↔ Taken s.conn j ∧ j ≠ i) : t.Exact where
  apart := (List.nodup_cons.mp (hactive.nodup_iff.mp h.apart)).2
  taken_iff j := by
    have hnot : i ∉ t.active := (List.nodup_cons.mp (hactive.nodup_iff.mp h.apart)).1
    rw [htaken, h.taken_iff, hactive.mem_iff, List.mem_cons]
    constructor
    · rintro ⟨rfl | hmem, hne⟩
      · exact absurd rfl hne
      · exact hmem
    · intro hmem
      exact ⟨.inr hmem, fun heq => hnot (heq ▸ hmem)⟩

theorem look_exact (h : s.Exact) (hslot : s.listener.slot = none) (hlook : look i s = some t) : t.Exact := by
  unfold look at hlook
  dsimp only at hlook
  cases hget : s.conn[wrap s.conn.length i]? with
  | none => simp [hget] at hlook
  | some slot =>
      rw [hget] at hlook
      dsimp only at hlook
      have hlt := (List.getElem?_eq_some_iff.mp hget).1
      by_cases hid : slot.id = 0
      · rw [if_pos hid] at hlook
        cases hlook
        refine h.reserve (i := wrap s.conn.length i) ?_ ?_ fun j => taken_set hlt Nat.one_ne_zero
        · rw [Server.active, Server.active, hslot]
          exact .refl _
        · rintro ⟨slot', hslot', hid'⟩
          rw [hget] at hslot'
          cases hslot'
          exact hid' hid
      · rw [if_neg hid] at hlook
        cases hlook
        refine h.same ?_ fun j => .rfl
        rw [Server.active, Server.active, hslot]
        exact .refl _

/-- A step that does not fail loses no slot. -/
theorem step_exact (h : s.Exact) (hok : e.fails = false) (hstep : step e s = some t) : t.Exact := by
  cases e with
  | select =>
      simp only [step] at hstep
      split at hstep
      · rename_i hlistener
        cases hstep
        refine h.same ?_ fun j => .rfl
        simp [Server.active, Listener.slot, hlistener]
      · cases hstep
  | look =>
      simp only [step] at hstep
      split at hstep
      · rename_i hlistener
        exact look_exact h (by rw [hlistener]; rfl) hstep
      · cases hstep
  | accept result =>
      simp only [step] at hstep
      split at hstep
      · rename_i i hlistener
        cases result with
        | socket fd =>
            cases hstep
            refine h.same ?_ fun j => taken_modify fun _ => rfl
            simp [Server.active, Listener.slot, hlistener]
        | interrupted => cases hok
        | failed => cases hok
      · cases hstep
  | create rc =>
      have hrc : rc = 0 := by simpa [Event.fails] using hok
      subst hrc
      simp only [step] at hstep
      split at hstep
      · rename_i i hlistener
        cases hstep
        refine h.same ?_ fun j => .rfl
        simp [Server.active, Listener.slot, hlistener, served, List.perm_append_singleton]
      · cases hstep
  | self k tid =>
      simp only [step] at hstep
      split at hstep
      · rename_i i hthread
        obtain ⟨before, behind, hsplit, hset, -⟩ := served_threads hthread
        split at hstep
        · cases hstep
        · rename_i htid
          cases hstep
          have hactive : i ∈ s.active := by simp [Server.active, hsplit, served]
          refine h.same ?_ fun j => taken_modify_id ((h.taken_iff i).mpr hactive) fun _ => htid
          rw [Server.active, Server.active, hset, hsplit]
          exact .refl _
      · cases hstep
  | request k =>
      simp only [step] at hstep
      split at hstep
      · cases hstep
        exact h.same (.refl _) fun j => taken_modify fun _ => rfl
      · cases hstep
  | close k exitflag =>
      simp only [step] at hstep
      split at hstep
      · rename_i i hthread
        obtain ⟨before, behind, hsplit, hset, -⟩ := served_threads hthread
        cases hstep
        by_cases hflag : exitflag = 0
        · refine h.same ?_ fun j => taken_modify fun _ => by simp [closeconnect, hflag]
          rw [if_pos hflag]
          exact .refl _
        · refine h.giveBack (i := i) ?_ fun j => taken_modify_clear fun _ => by simp [closeconnect, hflag]
          rw [if_neg hflag, Server.active, Server.active, hset, hsplit]
          simpa [served] using @List.perm_middle _ i (s.listener.slot.toList ++ before) behind
      · cases hstep
  | exit k =>
      simp only [step] at hstep
      split at hstep
      · rename_i i hthread
        obtain ⟨before, behind, hsplit, -, herase⟩ := served_threads hthread
        cases hstep
        refine h.same ?_ fun j => taken_modify fun _ => rfl
        rw [Server.active, Server.active, herase, hsplit]
        simp [served]
      · cases hstep

/-- The listener gives up a slot that is taken. -/
theorem not_exact_of_dropped (h : s.Exact) (hslot : s.listener.slot = some i) (hconn : t.conn = s.conn)
    (hactive : t.active = s.threads.filterMap served) : ¬ t.Exact := by
  intro hexact
  have hsplit : s.active = i :: t.active := by
    rw [hactive, Server.active, hslot]
    rfl
  have htaken : Taken t.conn i := by
    rw [hconn, h.taken_iff, hsplit]
    exact List.mem_cons_self
  have hapart := h.apart
  rw [hsplit] at hapart
  exact (List.nodup_cons.mp hapart).1 ((hexact.taken_iff i).mp htaken)

/-- A step that fails loses a slot. -/
theorem step_not_exact (h : s.Exact) (hfails : e.fails = true) (hstep : step e s = some t) : ¬ t.Exact := by
  cases e with
  | accept result =>
      simp only [step] at hstep
      split at hstep
      · rename_i i hlistener
        have hslot : s.listener.slot = some i := by rw [hlistener]; rfl
        cases result with
        | socket fd => cases hfails
        | interrupted =>
            cases hstep
            exact not_exact_of_dropped h hslot rfl rfl
        | failed =>
            cases hstep
            exact not_exact_of_dropped h hslot rfl rfl
      · cases hstep
  | create rc =>
      have hrc : rc ≠ 0 := by simpa [Event.fails] using hfails
      simp only [step] at hstep
      split at hstep
      · rename_i i hlistener
        have hslot : s.listener.slot = some i := by rw [hlistener]; rfl
        rw [if_neg hrc] at hstep
        split at hstep
        · cases hstep
        · cases hstep
          exact not_exact_of_dropped h hslot rfl rfl
      · cases hstep
  | _ => cases hfails

/-! ### `get_conn` -/

theorem Server.Finds.of_look (hlook : step .look s = some t) (h : t.Finds) : s.Finds := by
  obtain ⟨n, u, i, hlooks, hu⟩ := h
  refine ⟨n + 1, u, i, ?_, hu⟩
  simp [looks, hlook, hlooks]

/-- The slot that is looked at is free, or the next one is looked at. -/
theorem look_cases (hlistener : s.listener = .scanning i) (hi : i < s.conn.length) :
    (¬ Taken s.conn i ∧ s.Finds) ∨
      (Taken s.conn i ∧ step .look s = some { s with listener := .scanning (i + 1) }) := by
  have hget : s.conn[i]? = some s.conn[i] := List.getElem?_eq_getElem hi
  have hwrap : wrap s.conn.length i = i := if_neg (Nat.not_le.mpr hi)
  by_cases hid : s.conn[i].id = 0
  · refine .inl ⟨?_, 1, { s with conn := s.conn.set i { id := 1 }, listener := .accepting i }, i, ?_, rfl⟩
    · rintro ⟨slot, hslot, hne⟩
      rw [hget] at hslot
      cases hslot
      exact hne hid
    · simp [looks, step, hlistener, look, hwrap, hget, hid]
  · refine .inr ⟨⟨_, hget, hid⟩, ?_⟩
    simp [step, hlistener, look, hwrap, hget, hid]

/-- A free slot that is still to come is found, or one before it. -/
theorem finds_ahead {free d : Nat} (hfree : ¬ Taken s.conn free) (hlt : free < s.conn.length)
    (hlistener : s.listener = .scanning i) (hd : i + d = free) : s.Finds := by
  induction d generalizing s i with
  | zero =>
      subst hd
      rcases look_cases hlistener hlt with ⟨-, hfinds⟩ | ⟨htaken, -⟩
      · exact hfinds
      · exact absurd htaken hfree
  | succ d ih =>
      rcases look_cases hlistener (by omega) with ⟨-, hfinds⟩ | ⟨-, hlook⟩
      · exact hfinds
      · exact .of_look hlook (ih hfree hlt rfl (by omega))

/-- Behind the last slot the first one is looked at. -/
theorem finds_behind {free : Nat} (hfree : ¬ Taken s.conn free) (hlt : free < s.conn.length)
    (hlistener : s.listener = .scanning i) (hi : s.conn.length ≤ i) : s.Finds := by
  obtain ⟨n, t, j, hlooks, ht⟩ :=
    @finds_ahead { s with listener := .scanning 0 } 0 free free hfree hlt rfl (Nat.zero_add free)
  cases n with
  | zero =>
      cases hlooks
      cases ht
  | succ n =>
      refine ⟨n + 1, t, j, ?_, ht⟩
      have hwrap : wrap s.conn.length i = wrap s.conn.length 0 := by
        rw [wrap, wrap, if_pos hi, ite_self]
      have hlook : step .look s = step .look { s with listener := .scanning 0 } := by
        simp only [step, hlistener, look, hwrap]
      rw [looks, hlook]
      exact hlooks

/-- A free slot is found, wherever `get_conn` is. -/
theorem finds_of_free {free d : Nat} (hfree : ¬ Taken s.conn free) (hlt : free < s.conn.length)
    (hlistener : s.listener = .scanning i) (hd : s.conn.length ≤ i + d) : s.Finds := by
  induction d generalizing s i with
  | zero => exact finds_behind hfree hlt hlistener hd
  | succ d ih =>
      by_cases hi : i < s.conn.length
      · rcases look_cases hlistener hi with ⟨-, hfinds⟩ | ⟨-, hlook⟩
        · exact hfinds
        · refine .of_look hlook (ih hfree hlt rfl ?_)
          dsimp only
          omega
      · exact finds_behind hfree hlt hlistener (Nat.not_lt.mp hi)

/-- There is a free slot if there are more slots than connections. -/
theorem exists_free (h : s.Exact) (hless : s.active.length < s.conn.length) :
    ∃ free, free < s.conn.length ∧ ¬ Taken s.conn free := by
  by_contra hall
  have hsub : List.range s.conn.length ⊆ s.active := by
    intro i hi
    by_contra hmem
    exact hall ⟨i, List.mem_range.mp hi, fun htaken => hmem ((h.taken_iff i).mp htaken)⟩
  have hle := (List.Nodup.subperm List.nodup_range hsub).length_le
  rw [List.length_range] at hle
  omega

theorem Server.Exact.notLeaked (h : s.Exact) : s.NotLeaked where
  exact := h
  finds hless i hlistener := by
    obtain ⟨free, hlt, hfree⟩ := exists_free h hless
    exact finds_of_free hfree hlt hlistener (Nat.le_add_left _ i)

/-! ### Runs -/

theorem run_append (es es' : List Event) : run s (es ++ es') = (run s es).bind fun t => run t es' := by
  induction es generalizing s with
  | nil => rfl
  | cons e es ih => cases h : step e s <;> simp [run, h, ih]

theorem run_exact {es : List Event} (h : s.Exact) (hok : ∀ e ∈ es, e.fails = false) (hrun : run s es = some t) :
    t.Exact := by
  induction es generalizing s with
  | nil =>
      cases hrun
      exact h
  | cons e es ih =>
      obtain ⟨u, hstep, hrest⟩ := Option.bind_eq_some_iff.mp hrun
      exact ih (step_exact h (hok e List.mem_cons_self) hstep)
        (fun e' he' => hok e' (List.mem_cons_of_mem _ he')) hrest

theorem idle_exact (n : Nat) : (idle n).Exact where
  apart := by simp [Server.active, idle, Listener.slot]
  taken_iff i := by
    refine ⟨?_, fun hmem => ?_⟩
    · rintro ⟨slot, hslot, hid⟩
      have hmem : slot ∈ List.replicate n { socket := -1 } := List.mem_of_getElem? hslot
      rw [List.eq_of_mem_replicate hmem] at hid
      exact absurd rfl hid
    · simp [Server.active, idle, Listener.slot] at hmem

end

/-- No slot is lost in any state of a run exactly if every `tcp_accept` of the run has a connection, and every
`pthread_create` starts a thread. -/
theorem notLeaked_iff {maxconn : Nat} {events : List Event} {s : Server} (hrun : run (idle maxconn) events = some s) :
    (∀ before t, before <+: events → run (idle maxconn) before = some t → t.NotLeaked) ↔
      ∀ e ∈ events, e.fails = false := by
  constructor
  · intro hall e he
    obtain ⟨before, behind, rfl⟩ := List.append_of_mem he
    rw [run_append] at hrun
    obtain ⟨t, ht, hrest⟩ := Option.bind_eq_some_iff.mp hrun
    obtain ⟨u, hstep, -⟩ := Option.bind_eq_some_iff.mp hrest
    have hbefore := hall before t (List.prefix_append _ _) ht
    have hbehind : u.NotLeaked := by
      refine hall (before ++ [e]) u ⟨behind, by simp⟩ ?_
      rw [run_append, ht]
      simp [run, hstep]
    by_contra hfails
    rw [Bool.not_eq_false] at hfails
    exact step_not_exact hbefore.exact hfails hstep hbehind.exact
  · rintro hok before t ⟨behind, rfl⟩ ht
    exact (run_exact (idle_exact maxconn) (fun e he => hok e (List.mem_append_left _ he)) ht).notLeaked

/-- A connection that is accepted, served and closed. -/
theorem notLeaked_one :
    (∀ before t, before <+: [.select, .look, .accept (.socket 5), .create 0, .self 0 9, .close 0 2, .exit 0] →
      run (idle 1) before = some t → t.NotLeaked) ↔
    ∀ e ∈ [Event.select, .look, .accept (.socket 5), .create 0, .self 0 9, .close 0 2, .exit 0], e.fails = false :=
  notLeaked_iff (s := { conn := [{ socket := -1 }] }) (by decide)

/-- The server behind an `accept` that a signal has interrupted: its only slot is taken, and there is no connection. -/
theorem not_notLeaked :
    run (idle 1) [.select, .look, .accept .interrupted] = some { conn := [{ id := 1 }] } ∧
      ¬ Server.NotLeaked { conn := [{ id := 1 }] } := by
  refine ⟨by decide, fun h => ?_⟩
  have hmem : 0 ∈ Server.active { conn := [{ id := 1 }] } := (h.exact.taken_iff 0).mp ⟨{ id := 1 }, rfl, by decide⟩
  simp [Server.active, Listener.slot] at hmem

end NullG.Httpd.Slots
