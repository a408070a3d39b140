/-
The `finally` block of `n_try`.

`n_try` gives the block to `nsp_exec` with the flags as the `try` or the `catch` block has left
them. `Block` says what is to happen: the statements of the block are executed one after the other,
each once, up to its end. With a `break` or a `continue` pending `nsp_exec` executes none of them,
and with a `return` pending it stops behind the first statement of `block.c`.
-/

import NullG.Nsp.JumpRuns

namespace NullG.Nsp

open NullG.Lib

variable (k : Calls) (env : Env)

/-- A statement of a block as it was executed: its first op, and the flags behind it. -/
structure Executed where
  op : Byte
  flags : Flags

/-- The ops at which a block ends: its brace, or the end of the text. -/
def endsBlock (op : Byte) : Prop := op = 0 ∨ op = opPcbrace

/-- The statements of a block are executed one after the other, each once, from the state in which
`nsp_exec` comes to the first one to the one in which it has come to the end of the block. None
raises an error or yields. -/
inductive Block : St → List Executed → St → Prop where
  | done {s u : St} {op : Byte} : peekop s = .ok op u → endsBlock op → u.signal = false → Block s [] u
  | stmt {s s₁ s₂ s₃ u : St} {op : Byte} {fin : Bool} {l : List Executed} :
      peekop s = .ok op s₁ → ¬ endsBlock op → s₁.signal = false →
      statement k env true false s₁ = .ok fin s₂ → accept opPsemicol s₂ = .ok () s₃ →
      s₃.yielded = false → Block s₃ l u → Block s (⟨op, s₂.flags⟩ :: l) u

/-- The ops of `break`, `continue` and `return`. -/
def isJump (op : Byte) : Bool := op == opKbreak || op == opKcont || op == opKret

/-- The ops of the statements of `block.c`. -/
def isCompound (op : Byte) : Bool :=
  op == opKif || op == opKfor || op == opKforeach || op == opKswitch || op == opKdo || op == opKwhile ||
    op == opKtry

/-- The statements of a block do not jump out of it: none sets a flag that is not set before it. -/
def JumpsNot (f : Flags) : List Executed → Prop
  | [] => True
  | x :: l => (isJump x.op = false ∧ (f.brk ≤ 0 → x.flags.brk ≤ 0) ∧ (f.cnt ≤ 0 → x.flags.cnt ≤ 0) ∧
      (f.ret = false → x.flags.ret = false)) ∧ JumpsNot x.flags l

instance : (f : Flags) → (l : List Executed) → Decidable (JumpsNot f l)
  | _, [] => inferInstanceAs (Decidable True)
  | _, x :: l =>
      have := instDecidableJumpsNot x.flags l
      inferInstanceAs (Decidable (_ ∧ JumpsNot x.flags l))

/-! ### The end of a statement -/

variable {k env}

theorem within_run {α : Type} {f : Frame} {x : M α} {s s' : St} {a : α}
    (h : x { s with frames := f :: s.frames } = .ok a s') :
    within f x s = .ok a { s' with frames := s.frames } := by
  unfold within
  rw [h]

theorem bind_pure_run {α β : Type} {x : M α} {b b' : β} {s s' : St}
    (h : (x >>= fun _ => pure b) s = .ok b' s') : b' = b := by
  obtain ⟨a, t, -, h⟩ := bind_run_ok h
  cases h
  rfl

theorem compound_isSome (op : Byte) : (compound k op).isSome = isCompound op := by
  unfold compound isCompound
  repeat' split
  all_goals simp_all

theorem raiseStmt_not_ok {op : Byte} {s t : St} {u : Unit} : raiseStmt k op s ≠ .ok u t := by
  intro h
  unfold raiseStmt at h
  have hraise : ∀ {err : Int} {located : Bool} {text : List Byte} {s t : St} {u : Unit},
      (nErr err located text : M Unit) s ≠ .ok u t := fun h => by cases h
  split at h
  · obtain ⟨_, s₁, -, h⟩ := bind_run_ok h
    obtain ⟨_, s₂, -, h⟩ := bind_run_ok h
    exact hraise h
  · split at h
    · obtain ⟨_, s₁, -, h⟩ := bind_run_ok h
      exact hraise h
    · exact hraise h

/-- `nsp_exec` ends behind a jump, and behind a statement of `block.c` with a `return` pending. -/
theorem keyStmt_fin {block single fin : Bool} {op : Byte} {s t : St}
    (h : keyStmt k env block single op s = .ok fin t) (hjump : isJump op = false) :
    fin = (isCompound op && t.ret) := by
  unfold keyStmt at h
  rw [← compound_isSome (k := k)]
  cases hx : compound k op with
  | some x =>
      rw [hx] at h
      obtain ⟨_, u, -, h⟩ := bind_run_ok h
      cases h
      rfl
  | none =>
      rw [hx] at h
      dsimp only at h
      have hno : ¬ (op = opKbreak ∨ op = opKcont ∨ op = opKret) := by
        rintro (rfl | rfl | rfl) <;> exact absurd hjump (by decide)
      rw [if_neg hno] at h
      by_cases hraise : op = opKthrow ∨ op = opKexit ∨ op = opKelse
      · rw [if_pos hraise] at h
        obtain ⟨_, u, hr, -⟩ := bind_run_ok h
        exact absurd hr raiseStmt_not_ok
      · rw [if_neg hraise] at h
        exact bind_pure_run h

theorem isCompound_key {op : Byte} (h : isCompound op = true) :
    opIsmath op = false ∧ opIspunc op = false ∧ opIskey op = true := by
  simp only [isCompound, Bool.or_eq_true, beq_iff_eq] at h
  rcases h with ((((((rfl | rfl) | rfl) | rfl) | rfl) | rfl) | rfl) <;> decide

/-- In a block `break` and `continue` do not ask for `N->single`. -/
theorem statement_block (single : Bool) : statement k env true single = statement k env true false := by
  have hneeds : ∀ name : String, needsBlock true single name = needsBlock true false name := by
    intro name
    unfold needsBlock refuse
    rw [if_neg fun h => Bool.noConfusion h.1, if_neg fun h => Bool.noConfusion h.1]
  have hjump : ∀ op : Byte, jumpStmt k true single op = jumpStmt k true false op := by
    intro op
    unfold jumpStmt
    rw [hneeds, hneeds]
  have hkey : ∀ op : Byte, keyStmt k env true single op = keyStmt k env true false op := by
    intro op
    unfold keyStmt
    rw [hjump]
  unfold statement
  simp only [hkey]

theorem statement_fin {block single fin : Bool} {op : Byte} {s t : St}
    (h : statement k env block single s = .ok fin t) (hop : deref s.readptr = .ok op)
    (hjump : isJump op = false) : fin = (isCompound op && t.ret) := by
  obtain ⟨op', s₁, hcur, h⟩ := bind_run_ok h
  obtain ⟨hop', rfl⟩ := ofExcept_ok (x := deref s.readptr) hcur
  rw [hop] at hop'
  cases hop'
  obtain ⟨p, s₂, hhere, h⟩ := bind_run_ok h
  cases hhere
  obtain ⟨_, s₃, -, h⟩ := bind_run_ok h
  have hnot : ¬ (opIsmath op = false ∧ opIspunc op = false ∧ opIskey op = true) →
      isCompound op = false := fun hno => Bool.eq_false_iff.mpr fun hc => hno (isCompound_key hc)
  by_cases hmath : opIsmath op = true
  · rw [if_pos hmath] at h
    rw [hnot fun h => absurd (hmath.symm.trans h.1) Bool.noConfusion, Bool.false_and]
    obtain ⟨_, s₄, -, h⟩ := bind_run_ok h
    split at h
    · obtain ⟨_, s₅, -, h⟩ := bind_run_ok h
      obtain ⟨_, s₆, -, h⟩ := bind_run_ok h
      exact bind_pure_run h
    · obtain ⟨_, s₅, -, h⟩ := bind_run_ok h
      exact bind_pure_run h
  · rw [if_neg hmath] at h
    by_cases hpunc : opIspunc op = true
    · rw [if_pos hpunc] at h
      rw [hnot fun h => absurd (hpunc.symm.trans h.2.1) Bool.noConfusion, Bool.false_and]
      exact bind_pure_run h
    · rw [if_neg hpunc] at h
      by_cases hkey : opIskey op = true
      · rw [if_pos hkey] at h
        obtain ⟨_, s₄, -, h⟩ := bind_run_ok h
        exact keyStmt_fin h hjump
      · rw [if_neg hkey] at h
        rw [hnot fun h => hkey h.2.2, Bool.false_and]
        obtain ⟨_, s₄, -, h⟩ := bind_run_ok h
        obtain ⟨_, s₅, -, h⟩ := bind_run_ok h
        obtain ⟨_, s₆, -, h⟩ := bind_run_ok h
        obtain ⟨_, s₇, -, h⟩ := bind_run_ok h
        exact bind_pure_run h

/-! ### The loop of `nsp_exec` on a block -/

theorem control_ok {α : Type} {x : M α} {s t : St} {a : α} (hx : controlLaw.Obeys x)
    (h : x s = .ok a t) : SameControl s t := (hx s).of_ok h

section

variable (hgrows : k.Obeys flagsLaw) (hgrows' : ∀ p, flagsLaw.Obeys (k.exec p))

include hgrows hgrows'

/-- A statement adds the step of its start to the run. -/
theorem statement_log {block single fin : Bool} {s t : St}
    (h : statement k env block single s = .ok fin t) : s.log.length < t.log.length := by
  obtain ⟨op, s₁, hcur, h⟩ := bind_run_ok h
  obtain ⟨p, s₂, hhere, h⟩ := bind_run_ok h
  obtain ⟨_, s₃, hnote, h⟩ := bind_run_ok h
  obtain ⟨steps, hsteps, -⟩ := (flagsLaw_governs.statementRest hgrows hgrows' block single op s₃).of_ok h
  have h₁ := (control_ok lawful_control.cur hcur).log
  cases hhere
  cases hnote
  rw [hsteps, List.length_append, List.length_cons, h₁]
  omega

theorem Block.log_le {s u : St} {l : List Executed} (h : Block k env s l u) :
    s.log.length + l.length ≤ u.log.length := by
  induction h with
  | done hpeek => rw [(control_ok lawful_control.peekop hpeek).log]; exact Nat.le_refl _
  | stmt hpeek _ _ hstmt haccept _ _ ih =>
      have h₁ := (control_ok lawful_control.peekop hpeek).log
      have h₂ := statement_log hgrows hgrows' hstmt
      have h₃ := (control_ok (lawful_control.accept _) haccept).log
      rw [h₃] at ih
      rw [h₁] at h₂
      rw [List.length_cons]
      omega

end

/-- Nothing that is pending keeps `nsp_exec` from a statement of the block. -/
def Unhindered (single : Bool) (f : Flags) (l : List Executed) : Prop :=
  l = [] ∨ f.brk ≤ 0 ∧ f.cnt ≤ 0 ∧ (single = true → l.length = 1) ∧
    ∀ x ∈ l.dropLast, isCompound x.op = true → x.flags.ret = false

instance (single : Bool) (f : Flags) (l : List Executed) : Decidable (Unhindered single f l) :=
  decidable_of_iff (l.isEmpty = true ∨ f.brk ≤ 0 ∧ f.cnt ≤ 0 ∧ (single = true → l.length = 1) ∧
    ∀ x ∈ l.dropLast, isCompound x.op = true → x.flags.ret = false) (or_congr List.isEmpty_iff Iff.rfl)

theorem unhindered_cons {single : Bool} {f : Flags} {x : Executed} {l : List Executed}
    (hbrk : f.brk ≤ 0) (hcnt : f.cnt ≤ 0) :
    Unhindered single f (x :: l) ↔
      l = [] ∨ single = false ∧ (isCompound x.op = true → x.flags.ret = false) ∧
        ∀ y ∈ l.dropLast, isCompound y.op = true → y.flags.ret = false := by
  cases l with
  | nil => exact ⟨fun _ => .inl rfl, fun _ => .inr ⟨hbrk, hcnt, fun _ => rfl, fun _ h => absurd h List.not_mem_nil⟩⟩
  | cons y l =>
      constructor
      · rintro (h | ⟨-, -, hsingle, h⟩)
        · cases h
        · rw [List.dropLast_cons_cons, List.forall_mem_cons] at h
          exact .inr ⟨Bool.eq_false_iff.mpr fun hs => Nat.noConfusion (Nat.succ.inj (hsingle hs)), h⟩
      · rintro (h | ⟨rfl, h⟩)
        · cases h
        · refine .inr ⟨hbrk, hcnt, fun h => Bool.noConfusion h, ?_⟩
          rw [List.dropLast_cons_cons, List.forall_mem_cons]
          exact h

/-- The loop ends before an op where a block ends, or with a jump pending. -/
theorem execLoop_stop {single : Bool} {n : Nat} {s s₁ : St} {op : Byte} (hpeek : peekop s = .ok op s₁)
    (hsignal : s₁.signal = false) (hstop : op = 0 ∨ 0 < s₁.brk ∨ 0 < s₁.cnt ∨ op = opPcbrace) :
    execLoop k env true single (n + 1) s = .ok () s₁ := by
  show (peekop >>= _ : M Unit) s = _
  rw [run_bind_of_ok hpeek]
  dsimp only
  by_cases hop : op = 0
  · rw [if_pos hop]
    rfl
  · rw [if_neg hop]
    show (if s₁.signal = true then _ else _ : M Unit) s₁ = _
    rw [if_neg (Bool.eq_false_iff.mp hsignal), if_pos ⟨rfl, hstop.resolve_left hop⟩]
    rfl

/-- The loop behind a statement. -/
theorem execLoop_stmt {single fin : Bool} {n : Nat} {s s₁ s₂ s₃ : St} {op : Byte}
    (hpeek : peekop s = .ok op s₁) (hop : ¬ endsBlock op) (hsignal : s₁.signal = false)
    (hgo : s₁.brk ≤ 0 ∧ s₁.cnt ≤ 0) (hstmt : statement k env true single s₁ = .ok fin s₂)
    (haccept : accept opPsemicol s₂ = .ok () s₃) (hyielded : s₃.yielded = false) :
    execLoop k env true single (n + 1) s =
      if fin then .ok () s₂ else if single then .ok () s₃ else execLoop k env true single n s₃ := by
  obtain ⟨hzero, hbrace⟩ := not_or.mp hop
  have hpass : ¬ (true = true ∧ (0 < s₁.brk ∨ 0 < s₁.cnt ∨ op = opPcbrace)) := by
    rintro ⟨-, h | h | h⟩
    · exact absurd hgo.1 (Int.not_le.mpr h)
    · exact absurd hgo.2 (Int.not_le.mpr h)
    · exact hbrace h
  show (peekop >>= _ : M Unit) s = _
  rw [run_bind_of_ok hpeek]
  dsimp only
  rw [if_neg hzero]
  show (if s₁.signal = true then _ else _ : M Unit) s₁ = _
  rw [if_neg (Bool.eq_false_iff.mp hsignal), if_neg hpass, if_neg hbrace, run_bind_of_ok hstmt]
  cases fin with
  | true => rfl
  | false =>
      show (accept opPsemicol >>= _ : M Unit) s₂ = _
      rw [run_bind_of_ok haccept]
      show (if s₃.yielded = true ∨ single = true then _ else _ : M Unit) s₃ = _
      rw [hyielded]
      cases single <;> rfl

section

variable (hgrows : k.Obeys flagsLaw) (hgrows' : ∀ p, flagsLaw.Obeys (k.exec p))

include hgrows hgrows'

/-- A block whose steps are those of the state before its last statements has no statements left. -/
theorem Block.nil_of_log {s u : St} {l : List Executed} (h : Block k env s l u) (hlog : s.log = u.log) :
    l = [] := by
  have hle := h.log_le hgrows hgrows'
  rw [hlog] at hle
  cases l with
  | nil => rfl
  | cons x l =>
      rw [List.length_cons] at hle
      omega

theorem Block.log_iff {s u : St} {l : List Executed} (h : Block k env s l u) : s.log = u.log ↔ l = [] := by
  refine ⟨h.nil_of_log hgrows hgrows', ?_⟩
  rintro rfl
  cases h with
  | done hpeek => exact (control_ok lawful_control.peekop hpeek).log.symm

/-- The loop of `nsp_exec` on a block comes to an end, and it takes the steps of all of the block
where nothing keeps it from them. -/
theorem execLoop_block {b : Bool} {n : Nat} {s u : St} {l : List Executed}
    (hblock : Block k env s l u) (hplain : JumpsNot s.flags l) (hn : l.length < n) :
    ∃ s', execLoop k env true b n s = .ok () s' ∧ (s'.log = u.log ↔ Unhindered b s.flags l) := by
  obtain ⟨n, rfl⟩ : ∃ m, n = m + 1 := ⟨n - 1, by omega⟩
  induction hblock generalizing n with
  | @done s u op hpeek hend hsignal =>
      refine ⟨u, execLoop_stop hpeek hsignal ?_, fun _ => .inl rfl, fun _ => rfl⟩
      exact hend.imp_right fun h => .inr (.inr h)
  | @stmt s s₁ s₂ s₃ u op fin l hpeek hend hsignal hstmt haccept hyielded htail ih =>
      have hs₁ := control_ok lawful_control.peekop hpeek
      have hs₃ := control_ok (lawful_control.accept _) haccept
      obtain ⟨⟨hjump, hbrk, hcnt, hret⟩, hplain⟩ := hplain
      have hfin := statement_fin hstmt (peekop_ok hpeek).2 hjump
      have hlt := statement_log hgrows hgrows' hstmt
      have hle := htail.log_le hgrows hgrows'
      have hbrk₁ : s₁.brk = s.flags.brk := congrArg Flags.brk hs₁.flags
      have hcnt₁ : s₁.cnt = s.flags.cnt := congrArg Flags.cnt hs₁.flags
      by_cases hgo : s.flags.brk ≤ 0 ∧ s.flags.cnt ≤ 0
      · have hgo₁ : s₁.brk ≤ 0 ∧ s₁.cnt ≤ 0 := by
          rw [hbrk₁, hcnt₁]
          exact hgo
        rw [execLoop_stmt hpeek hend hsignal hgo₁ (statement_block b ▸ hstmt) haccept hyielded,
          unhindered_cons hgo.1 hgo.2]
        cases fin with
        | true =>
            -- behind a statement of `block.c` with a `return` pending there is nothing more
            obtain ⟨hcompound, hret₂⟩ := (Bool.and_eq_true _ _).mp hfin.symm
            refine ⟨s₂, if_pos rfl, ?_⟩
            rw [← hs₃.log, htail.log_iff hgrows hgrows']
            refine ⟨.inl, fun h => h.resolve_right ?_⟩
            rintro ⟨-, h, -⟩
            exact absurd ((h hcompound).symm.trans hret₂) Bool.false_ne_true
        | false =>
            rw [if_neg Bool.false_ne_true]
            cases b with
            | true =>
                refine ⟨s₃, if_pos rfl, ?_⟩
                rw [htail.log_iff hgrows hgrows']
                exact ⟨.inl, fun h => h.resolve_right fun h => Bool.noConfusion h.1⟩
            | false =>
                rw [if_neg Bool.false_ne_true]
                obtain ⟨m, rfl⟩ : ∃ m, n = m + 1 := ⟨n - 1, by rw [List.length_cons] at hn; omega⟩
                obtain ⟨s', hrun, hlog⟩ := ih (by rw [hs₃.flags]; exact hplain) m (Nat.lt_of_succ_lt_succ hn)
                refine ⟨s', hrun, hlog.trans ?_⟩
                have hhead : isCompound op = true → s₂.flags.ret = false := by
                  intro hc
                  rw [hc, Bool.true_and] at hfin
                  exact hfin.symm
                rw [hs₃.flags]
                constructor
                · rintro (h | ⟨-, -, -, h⟩)
                  · exact .inl h
                  · exact .inr ⟨rfl, hhead, h⟩
                · rintro (h | ⟨-, -, h⟩)
                  · exact .inl h
                  · exact .inr ⟨hbrk hgo.1, hcnt hgo.2, fun h => Bool.noConfusion h, h⟩
      · refine ⟨s₁, execLoop_stop hpeek hsignal (by omega), fun hlog => ?_, ?_⟩
        · rw [← hlog, hs₃.log, hs₁.log] at hle
          rw [hs₁.log] at hlt
          omega
        · rintro (h | ⟨hb, hc, -⟩)
          · cases h
          · exact absurd ⟨hb, hc⟩ hgo

end

/-! ### The `finally` of `n_try` -/

variable (k) in
/-- `n_try` up to its `finally`: whether an exception is left. -/
def tryCatch : M (Bool × List Byte × Bool) := do
  let bs ← here
  let (last, be, single) ← extent
  let except ← tryExec k bs
  goto be
  if (← peekop) = opKcatch then catchPart k except else pure (except, last, single)

/-- `n_try` from its `finally` on. -/
def endTry (k : Calls) (except : Bool) (last : List Byte) (single : Bool) : M Unit := do
  let (last, single) ← if (← peekop) = opKfinally then finallyPart k else pure (last, single)
  if except then
    let s ← get
    nErr neSyntax false s.errbuf
  if single then goto last

theorem nTry_eq : nTry k = tryCatch k >>= fun (except, last, single) => endTry k except last single := by
  unfold nTry tryCatch endTry
  simp only [bind_assoc]
  refine bind_congr fun bs => bind_congr fun place => bind_congr fun except => bind_congr fun _ =>
    bind_congr fun op => ?_
  by_cases h : op = opKcatch
  · rw [if_pos h, if_pos h]
  · rw [if_neg h, if_neg h]

/-- `finallyPart` up to its block: the block, and where it ends. -/
def finallyHead : M (List Byte × List Byte × List Byte × Bool) := do
  skip 1
  let bs ← here
  let place ← extent
  goto bs
  return (bs, place)

theorem finallyPart_run {s s₁ s₂ : St} {bs last be : List Byte} {single : Bool}
    (hhead : finallyHead s = .ok (bs, last, be, single) s₁) (hexec : within .guard (k.exec bs) s₁ = .ok () s₂) :
    finallyPart k s = .ok (last, single) { s₂ with readptr := be } := by
  obtain ⟨_, t, hskip, hhead⟩ := bind_run_ok hhead
  obtain ⟨p, u, hhere, hhead⟩ := bind_run_ok hhead
  obtain ⟨place, v, hextent, hhead⟩ := bind_run_ok hhead
  obtain ⟨_, w, hgoto, hhead⟩ := bind_run_ok hhead
  cases hhead
  show (skip 1 >>= _ : M _) s = _
  rw [run_bind_of_ok hskip, run_bind_of_ok hhere, run_bind_of_ok hextent]
  show (goto bs >>= _ : M _) v = _
  rw [run_bind_of_ok hgoto, run_bind_of_ok hexec]
  rfl

/-- `nsp_exec` up to its loop: the op at which it was pointed. -/
def openBlock (string : List Byte) : M Byte := do
  setSingle false
  goto string
  let op ← peekop
  seek false
  return op

theorem nspExec_block {s t : St} {p : List Byte} (hyielded : s.yielded = false)
    (hopen : openBlock p s = .ok opPobrace t) :
    nspExec k env p s = execLoop k env true s.single k.fuel t := by
  obtain ⟨_, t₁, hsingle, hopen⟩ := bind_run_ok hopen
  obtain ⟨_, t₂, hgoto, hopen⟩ := bind_run_ok hopen
  obtain ⟨op, t₃, hpeek, hopen⟩ := bind_run_ok hopen
  obtain ⟨_, t₄, hseek, hopen⟩ := bind_run_ok hopen
  cases hopen
  have hget : (get : M St) s = .ok s s := rfl
  rw [nspExec, run_bind_of_ok hget, run_bind_of_ok hsingle]
  rw [if_neg (Bool.eq_false_iff.mp hyielded), run_bind_of_ok hgoto, run_bind_of_ok hpeek, if_pos rfl,
    run_bind_of_ok hseek]
  rfl

/-- In the run of `n_try` from `s`, the block of the `finally` is given to `nsp_exec` in the state
`s₁`. Its statements are those of `l`, and `u` is the state at its end. -/
def Finally (env : Env) (n : Nat) (s s₁ : St) (l : List Executed) (u : St) : Prop :=
  ∃ left s₀ s' place t, tryCatch (interp env (n + 1)) s = .ok left s₀ ∧ peekop s₀ = .ok opKfinally s' ∧
    finallyHead s' = .ok place s₁ ∧ s₁.yielded = false ∧
    openBlock place.1 { s₁ with frames := .guard :: s₁.frames } = .ok opPobrace t ∧
    Block (interp env n) env t l u

theorem endTry_log {except single : Bool} {last : List Byte} {s s₁ s₂ : St} {place : List Byte × Bool}
    (hpeek : peekop s = .ok opKfinally s₁) (hfinally : finallyPart k s₁ = .ok place s₂) :
    (final (endTry k except last single s)).log = s₂.log := by
  show (final ((peekop >>= _ : M Unit) s)).log = _
  rw [run_bind_of_ok hpeek, if_pos rfl, run_bind_of_ok hfinally]
  cases except with
  | true => rfl
  | false =>
      show (final ((if place.2 = true then _ else _ : M Unit) s₂)).log = _
      split <;> rfl

/-! ### `Block` and `Finally`, computed -/

variable (k env) in
/-- The statements of a block, one after the other. -/
def runBlock : Nat → M (List Executed)
  | 0 => throw .stuck
  | n + 1 => do
      let op ← peekop
      let s ← get
      if s.signal then throw .stuck
      if op = 0 ∨ op = opPcbrace then return []
      let _ ← statement k env true false
      let t ← get
      accept opPsemicol
      let s ← get
      if s.yielded then throw .stuck
      let l ← runBlock n
      return ⟨op, t.flags⟩ :: l

theorem block_of_runBlock {n : Nat} {s u : St} {l : List Executed} (h : runBlock k env n s = .ok l u) :
    Block k env s l u := by
  induction n generalizing s l with
  | zero => cases h
  | succ n ih =>
      obtain ⟨op, s₁, hpeek, h⟩ := bind_run_ok h
      change (if s₁.signal = true then _ else _ : M (List Executed)) s₁ = _ at h
      by_cases hsignal : s₁.signal = true
      · rw [if_pos hsignal] at h
        cases h
      rw [if_neg hsignal] at h
      by_cases hend : op = 0 ∨ op = opPcbrace
      · rw [if_pos hend] at h
        cases h
        exact .done hpeek hend (Bool.eq_false_iff.mpr hsignal)
      rw [if_neg hend] at h
      obtain ⟨fin, s₂, hstmt, h⟩ := bind_run_ok h
      change (accept opPsemicol >>= _ : M (List Executed)) s₂ = _ at h
      obtain ⟨_, s₃, haccept, h⟩ := bind_run_ok h
      change (if s₃.yielded = true then _ else _ : M (List Executed)) s₃ = _ at h
      by_cases hyielded : s₃.yielded = true
      · rw [if_pos hyielded] at h
        cases h
      rw [if_neg hyielded] at h
      obtain ⟨l, u, hrest, h⟩ := bind_run_ok h
      cases h
      exact .stmt hpeek hend (Bool.eq_false_iff.mpr hsignal) hstmt haccept (Bool.eq_false_iff.mpr hyielded)
        (ih hrest)

/-- `n_try` up to the block of its `finally`, and this block. -/
def runFinally (env : Env) (n : Nat) : M (St × List Executed) := do
  let _ ← tryCatch (interp env (n + 1))
  let op ← peekop
  if op ≠ opKfinally then throw .stuck
  let (bs, _) ← finallyHead
  let s₁ ← get
  if s₁.yielded then throw .stuck
  modify fun s => { s with frames := .guard :: s.frames }
  let op ← openBlock bs
  if op ≠ opPobrace then throw .stuck
  let l ← runBlock (interp env n) env n
  return (s₁, l)

theorem finally_of_runFinally {n : Nat} {s s₁ u : St} {l : List Executed}
    (h : runFinally env n s = .ok (s₁, l) u) : Finally env n s s₁ l u := by
  obtain ⟨left, s₀, htry, h⟩ := bind_run_ok h
  obtain ⟨op, s', hpeek, h⟩ := bind_run_ok h
  by_cases hop : op ≠ opKfinally
  · rw [if_pos hop] at h
    cases h
  rw [if_neg hop] at h
  obtain rfl := not_not.mp hop
  obtain ⟨place, t₁, hhead, h⟩ := bind_run_ok h
  change (if t₁.yielded = true then _ else _ : M (St × List Executed)) t₁ = _ at h
  by_cases hyielded : t₁.yielded = true
  · rw [if_pos hyielded] at h
    cases h
  rw [if_neg hyielded] at h
  change (openBlock place.1 >>= _ : M (St × List Executed)) { t₁ with frames := .guard :: t₁.frames } = _ at h
  obtain ⟨op, t, hopen, h⟩ := bind_run_ok h
  by_cases hop : op ≠ opPobrace
  · rw [if_pos hop] at h
    cases h
  rw [if_neg hop] at h
  obtain rfl := not_not.mp hop
  obtain ⟨l, u, hrun, h⟩ := bind_run_ok h
  cases h
  exact ⟨left, s₀, s', place, t, htry, hpeek, hhead, Bool.eq_false_iff.mpr hyielded, hopen,
    block_of_runBlock hrun⟩

/-- A run of `n_try` that comes to a `finally` with `p`. -/
def finallyTest (env : Env) (n : Nat) (s : St) (p : St → List Executed → St → Bool) : Bool :=
  match runFinally env n s with
  | .ok (s₁, l) u => p s₁ l u
  | .error _ _ => false

theorem exists_finally {n : Nat} {s : St} {p : St → List Executed → St → Bool}
    (h : finallyTest env n s p = true) : ∃ s₁ l u, Finally env n s s₁ l u ∧ p s₁ l u = true := by
  unfold finallyTest at h
  cases hrun : runFinally env n s with
  | ok x u =>
      rw [hrun] at h
      exact ⟨x.1, x.2, u, finally_of_runFinally hrun, h⟩
  | error e u =>
      rw [hrun] at h
      cases h

/-- A state that stands at the start of a script, in constructs that are open. -/
def scriptAt (text : List Byte) (K : List Frame) : St :=
  match decompose none text newState with
  | .ok p s => { s with readptr := p.getD [], frames := K }
  | .error _ s => s

/-- Where a `finally` block neither jumps nor raises an error, `n_try` executes the whole of it, each
of its statements once, exactly when nothing that is pending keeps `nsp_exec` from them. -/
theorem finally_runs_iff (env : Env) (n : Nat) {s s₁ u : St} {l : List Executed}
    (hfinally : Finally env n s s₁ l u) (hplain : JumpsNot s₁.flags l) (hn : l.length + 1 < n) :
    (final (nTry (interp env (n + 1)) s)).log = u.log ↔ Unhindered s₁.single s₁.flags l := by
  obtain ⟨⟨except, last, single⟩, s₀, s', ⟨bs, last', be, single'⟩, t, htry, hpeek, hhead, hyielded, hopen, hblock⟩ :=
    hfinally
  obtain ⟨n, rfl⟩ : ∃ m, n = m + 1 := ⟨n - 1, by omega⟩
  obtain ⟨hgrows, hgrows'⟩ := flagsLaw_governs.interp env (n + 1)
  have hopened : SameControl { s₁ with frames := .guard :: s₁.frames } t := by
    refine control_ok ?_ hopen
    exact .bind (lawful_control.setSingle false) fun _ => .bind (lawful_control.goto bs) fun _ =>
      .bind lawful_control.peekop fun _ => .bind (lawful_control.seek false) fun _ => .pure _
  have hplain' : JumpsNot t.flags l := by
    rw [hopened.flags]
    exact hplain
  obtain ⟨s₂, hloop, hlog⟩ := execLoop_block (b := s₁.single) hgrows hgrows' hblock hplain'
    (Nat.lt_of_succ_lt_succ hn : l.length < (interp env (n + 1)).fuel)
  have hexec : within .guard ((interp env (n + 2)).exec bs) s₁ = .ok () { s₂ with frames := s₁.frames } := by
    have hyielded' : ({ s₁ with frames := .guard :: s₁.frames } : St).yielded = false := hyielded
    exact within_run ((nspExec_block hyielded' hopen).trans hloop)
  rw [nTry_eq, run_bind_of_ok htry, endTry_log hpeek (finallyPart_run hhead hexec)]
  show s₂.log = u.log ↔ _
  rw [hlog, hopened.flags]
  rfl

/-- The `try` of `try{x=1;}finally{y=2;}`. -/
theorem finally_runs_plain : ∃ s₁ l u, Finally bareEnv 20 (scriptAt (bytes "{x=1;}finally{y=2;}") []) s₁ l u ∧
    l.length = 1 ∧
    (final (nTry (interp bareEnv 21) (scriptAt (bytes "{x=1;}finally{y=2;}") []))).log = u.log := by
  obtain ⟨s₁, l, u, hfinally, htest⟩ := exists_finally (p := fun s₁ l _ => decide (l.length = 1 ∧
    JumpsNot s₁.flags l ∧ l.length + 1 < 20 ∧ Unhindered s₁.single s₁.flags l)) (by decide +kernel :
      finallyTest bareEnv 20 (scriptAt (bytes "{x=1;}finally{y=2;}") []) _ = true)
  obtain ⟨hlength, hplain, hn, hunhindered⟩ := of_decide_eq_true htest
  exact ⟨s₁, l, u, hfinally, hlength, (finally_runs_iff bareEnv 20 hfinally hplain hn).mpr hunhindered⟩

/-- A `finally` at `s` does not run all its statements. -/
def MissesFinally (s : St) : Prop :=
  ∃ s₁ l u, Finally bareEnv 20 s s₁ l u ∧ JumpsNot s₁.flags l ∧ l.length + 1 < 20 ∧
    (final (nTry (interp bareEnv 21) s)).log ≠ u.log

/-- The `try` of `while(1){try{break;}finally{x=1;}}` and the one of
`function f(){try{return 1;}finally{if(1){}x=1;}}`. -/
theorem not_finally_runs :
    MissesFinally (scriptAt (bytes "{break;}finally{x=1;}") [.loop]) ∧
      MissesFinally (scriptAt (bytes "{return 1;}finally{if(1){}x=1;}") [.call]) := by
  have hexists : ∀ {s : St}, finallyTest bareEnv 20 s (fun s₁ l u => decide (JumpsNot s₁.flags l ∧
      l.length + 1 < 20 ∧ (final (nTry (interp bareEnv 21) s)).log ≠ u.log)) = true → MissesFinally s := by
    intro s h
    obtain ⟨s₁, l, u, hfinally, htest⟩ := exists_finally h
    exact ⟨s₁, l, u, hfinally, of_decide_eq_true htest⟩
  constructor
  · exact hexists (by decide +kernel)
  · exact hexists (by decide +kernel)

end NullG.Nsp
