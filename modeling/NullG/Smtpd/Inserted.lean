/-
The buffers of `smtp_data`.

The headers that are missing are put one behind the other into a buffer of 1024 bytes by `strncatf`, which is told each
time that there are 1024 bytes behind what is there, and puts a NUL into the last of them. So there may be one such
header (`inserted_iff`). The message itself grows in steps that are larger than a line or a header, and `msgbodysize`
is an `int`.
-/

import NullG.Lib.Except
import NullG.Lib.Memory
import NullG.Smtpd.Data

namespace NullG.Smtpd.Inserted

open NullG.Nsp NullG.Lib NullG.Net NullG.Mail

/-! ### The headers -/

/-- `strncatf(dest, maxlen, ...)` of a text. -/
def strncatf (dest : List Byte) (maxlen : Nat) (text : List Byte) : Option (List Byte) := do
  let ptemp := (← Memory.str 0 dest 0).length
  let dest ← Memory.write dest ptemp (text.take (maxlen - 1) ++ [0])
  Memory.write dest (ptemp + (maxlen - 1)) [0]

def fromLine (sender : List Byte) : List Byte := bytes "From: " ++ sender ++ bytes "\r\n"

def dateLine (env : Env) (now : Nat) : List Byte := bytes "Date: " ++ env.date now ++ bytes "\r\n"

def warningLine (env : Env) : List Byte :=
  bytes "Date-warning: Date header was inserted by " ++ env.hostName ++ bytes "\r\n"

def idLine (env : Env) (now : Nat) : List Byte :=
  bytes "Message-id: <" ++ natDigits (env.time now) ++ bytes "@" ++ env.hostName ++ bytes ">\r\n"

/-- `outbuf` where the header ends, if nothing is written outside of it. -/
def insertHeaders (env : Env) (now : Nat) (sender : List Byte) (h : Msgheader) : Option (List Byte) := do
  let outbuf := List.replicate 1024 0
  let outbuf ← if h.sender.isEmpty then strncatf outbuf 1024 (fromLine sender) else some outbuf
  let outbuf ←
    if h.date.isEmpty then do
      let outbuf ← strncatf outbuf 1024 (dateLine env now)
      strncatf outbuf 1024 (warningLine env)
    else some outbuf
  if h.messageId.isEmpty then strncatf outbuf 1024 (idLine env now) else some outbuf

/-! ### The message -/

/-- What `realloc` has to give. -/
structure Heap where
  /-- there is room for a block of a size -/
  grants : Nat → Bool
  /-- what is in the cells that were not in use -/
  junk : Nat → Byte

/-- `realloc(mem, n)`. -/
def Heap.realloc (heap : Heap) (mem : List Byte) (n : Nat) : Option (List Byte) :=
  if heap.grants n then some (mem.take n ++ (List.range (n - mem.length)).map heap.junk) else none

/-- `mconn->msgbody`, `mconn->msgbodysize`, which is an `int`, and `buf_alloc`, which is an `unsigned int`. -/
structure Body where
  msgbody : List Byte
  msgbodysize : Int
  bufAlloc : Nat

/-- The message does not come to `smtp_accept`: `tcp_fgets` returns -1, `realloc` returns NULL (the answer is 451), or
memory outside of a buffer is written. -/
inductive Failure where
  | lost
  | refused
  | outOfBounds
  deriving DecidableEq

/-- A text of `n` bytes is to be appended. -/
def Body.grow (heap : Heap) (b : Body) (n : Nat) : Except Failure Body :=
  -- the sum is a `size_t`
  if (b.bufAlloc : Int) < (b.msgbodysize + n + 2) % 2 ^ 64 then
    let bufAlloc := (b.bufAlloc + 131072) % 2 ^ 32
    match heap.realloc b.msgbody bufAlloc with
    | some msgbody => .ok { b with msgbody := msgbody, bufAlloc := bufAlloc }
    | none => .error .refused
  else .ok b

/-- `strcat(mconn->msgbody + mconn->msgbodysize, text)`, and what it adds to `msgbodysize`. -/
def Body.strcat (b : Body) (text : List Byte) : Except Failure Body :=
  if b.msgbodysize < 0 then .error .outOfBounds
  else
    match Memory.strcat 0 b.msgbody b.msgbodysize.toNat text with
    | some msgbody => .ok { b with msgbody := msgbody, msgbodysize := (b.msgbodysize + text.length).bmod (2 ^ 32) }
    | none => .error .outOfBounds

def Body.append (heap : Heap) (b : Body) (text : List Byte) : Except Failure Body := do
  let b ← b.grow heap text.length
  b.strcat text

/-- `outbuf` is appended, if there is anything in it. -/
def Body.insert (heap : Heap) (b : Body) (outbuf : Option (List Byte)) : Except Failure Body :=
  match outbuf.bind (Memory.str 0 · 0) with
  | none => .error .outOfBounds
  | some text => if text.isEmpty then .ok b else b.append heap text

/-- The loop of `smtp_data`, over the lines that `tcp_fgets` returns: the message that is given to `smtp_accept`. -/
def dataLoop (env : Env) (heap : Heap) (now : Nat) (sender : List Byte) :
    Msgheader → Bool → Body → List (List Byte) → Except Failure Body
  | _, _, _, [] => .error .lost
  | h, done, b, line :: lines => do
      let (h, done, b) ←
        if done then .ok (h, done, b)
        else if startsWith line "From: " then .ok ({ h with sender := headerValue line 6 }, done, b)
        else if startsWith line "Date: " then .ok ({ h with date := headerValue line 6 }, done, b)
        else if startsWith line "Message-ID: " then .ok ({ h with messageId := headerValue line 12 }, done, b)
        else if isBlank line || isDot line then do
          let b ← b.insert heap (insertHeaders env now sender h)
          .ok (h, true, b)
        else .ok (h, done, b)
      if isDot line then .ok b
      else do
        let b ← b.append heap line
        dataLoop env heap now sender h done b lines

/-- The lines that `smtp_data` may read, as strings; there are as many calls of `tcp_fgets` as there are bytes. -/
def dataLines (s : Session) : List (List Byte) := (linesRead 1023 (s.conn.left + 1) s.conn.socket).map cstr

/-- `msgbody` before the first line: `calloc(65536, 1)`. -/
def newBody : Body := ⟨List.replicate 65536 0, 0, 65536⟩

/-- The message of a session. -/
def smtpData (env : Env) (heap : Heap) (now : Nat) (s : Session) : Except Failure Body :=
  dataLoop env heap now s.mconn.sender {} false newBody (dataLines s)

/-! ### What the buffers hold -/

/-- The lines that `strncatf` is called with. -/
def missing (env : Env) (now : Nat) (sender : List Byte) (h : Msgheader) : List (List Byte) :=
  (if h.sender.isEmpty then [fromLine sender] else []) ++
  (if h.date.isEmpty then [dateLine env now, warningLine env] else []) ++
  (if h.messageId.isEmpty then [idLine env now] else [])

/-- The date is there, and of the sender and the message's id at least one: there is one line to be inserted. -/
def OneMissing (h : Msgheader) : Prop := h.date ≠ [] ∧ (h.sender ≠ [] ∨ h.messageId ≠ [])

instance (h : Msgheader) : Decidable (OneMissing h) :=
  inferInstanceAs (Decidable (h.date ≠ [] ∧ (h.sender ≠ [] ∨ h.messageId ≠ [])))

/-- The headers that are known where the header ends. -/
def headerSeen : Msgheader → List (List Byte) → Option Msgheader
  | _, [] => none
  | h, line :: lines => if isBlank line || isDot line then some h else headerSeen (kept h line) lines

/-- The lines up to the dot. -/
def upToDot (lines : List (List Byte)) : List (List Byte) := lines.takeWhile (!isDot ·)

/-- The text of the headers that are inserted. -/
def insertedText (env : Env) (now : Nat) (sender : List Byte) (h : Msgheader) : List Byte :=
  (missing env now sender h).flatMap fun text => cstr (text.take 1023)

/-- The texts that are appended to the message. -/
def appended (env : Env) (now : Nat) (sender : List Byte) : Msgheader → List (List Byte) → List (List Byte)
  | _, [] => []
  | h, line :: lines =>
      if isBlank line || isDot line then
        (if (missing env now sender h).isEmpty then [] else [insertedText env now sender h]) ++ upToDot (line :: lines)
      else line :: appended env now sender (kept h line) lines

/-- With `n` bytes in the message, there are less than 2^31 where the last text is appended. -/
def Short (n : Nat) (texts : List (List Byte)) : Prop := texts = [] ∨ n + texts.dropLast.flatten.length < 2 ^ 31

/-- The buffer holds a text, and there is room for it and for two bytes; or the text is too long for an `int`. -/
structure Body.Holds (b : Body) (text : List Byte) : Prop where
  fits : text.length < 2 ^ 31 → b.msgbodysize = text.length ∧ text.length + 2 ≤ b.bufAlloc ∧
    b.msgbody.length = b.bufAlloc ∧ ∃ rest, b.msgbody = text ++ 0 :: rest
  long : 2 ^ 31 ≤ text.length → b.msgbodysize = text.length - 2 ^ 32 ∧ text.length < 2 ^ 31 + 1024
  alloc : b.bufAlloc < 2 ^ 32

section

variable {env : Env} {heap : Heap} {now : Nat} {sender : List Byte} {h : Msgheader} {b b' : Body} {n : Nat}
  {dest text t : List Byte} {texts lines : List (List Byte)}

/-! ### Appending -/

theorem realloc_length {mem mem' : List Byte} (hrun : heap.realloc mem n = some mem') : mem'.length = n := by
  unfold Heap.realloc at hrun
  split at hrun
  · cases hrun
    rw [List.length_append, List.length_take, List.length_map, List.length_range]
    omega
  · cases hrun

/-- A block that gets larger keeps what is in it. -/
theorem realloc_keeps {mem mem' : List Byte} (hrun : heap.realloc mem n = some mem') (hle : mem.length ≤ n) :
    ∃ more, mem' = mem ++ more := by
  unfold Heap.realloc at hrun
  split at hrun
  · cases hrun
    exact ⟨_, by rw [List.take_of_length_le hle]⟩
  · cases hrun

/-- There is room for the text then. -/
theorem grow_run (heap : Heap) (hb : b.Holds text) (hlt : text.length < 2 ^ 31) (hn : n ≤ 1023) :
    b.grow heap n = .error .refused ∨ ∃ b', b.grow heap n = .ok b' ∧ b'.Holds text ∧
      text.length + n + 2 ≤ b'.bufAlloc := by
  obtain ⟨hsize, hroom, hlen, rest, hcells⟩ := hb.fits hlt
  have halloc := hb.alloc
  have hneed : (b.msgbodysize + n + 2) % 2 ^ 64 = (text.length + n + 2 : Nat) := by
    rw [hsize]
    omega
  unfold Body.grow
  rw [hneed]
  split
  · rename_i hgrow
    have hmore : (b.bufAlloc + 131072) % 2 ^ 32 = b.bufAlloc + 131072 := Nat.mod_eq_of_lt (by omega)
    rw [hmore]
    dsimp only
    split
    · rename_i msgbody hrun
      obtain ⟨more, hkeeps⟩ := realloc_keeps hrun (by omega)
      refine Or.inr ⟨_, rfl, ⟨fun _ => ⟨hsize, ?_, realloc_length hrun, rest ++ more, ?_⟩, fun h => ?_, ?_⟩, ?_⟩
      · show text.length + 2 ≤ b.bufAlloc + 131072
        omega
      · show msgbody = _
        rw [hkeeps, hcells, List.append_assoc, List.cons_append]
      · omega
      · show b.bufAlloc + 131072 < 2 ^ 32
        omega
      · show text.length + n + 2 ≤ b.bufAlloc + 131072
        omega
    · exact Or.inl rfl
  · exact Or.inr ⟨b, rfl, hb, by omega⟩

/-- A text is appended to a message of less than 2^31 bytes. -/
theorem append_run (heap : Heap) (hb : b.Holds text) (hlt : text.length < 2 ^ 31) (ht : t.length ≤ 1023) :
    b.append heap t = .error .refused ∨ ∃ b', b.append heap t = .ok b' ∧ b'.Holds (text ++ t) := by
  obtain hrefused | ⟨b', hgrow, hb', hroom⟩ := grow_run heap hb hlt ht
  · exact Or.inl (by rw [Body.append, hrefused]; rfl)
  · obtain ⟨hsize, -, hlen, rest, hcells⟩ := hb'.fits hlt
    have hrest : t.length ≤ rest.length := by
      rw [hcells, List.length_append, List.length_cons] at hlen
      omega
    have hcat : Memory.strcat 0 b'.msgbody b'.msgbodysize.toNat t = some (text ++ t ++ 0 :: rest.drop t.length) := by
      rw [hsize, Int.toNat_natCast, hcells]
      exact Memory.strcat_text text hrest
    have hrun : b.append heap t = .ok { b' with
        msgbody := text ++ t ++ 0 :: rest.drop t.length
        msgbodysize := (b'.msgbodysize + t.length).bmod (2 ^ 32) } := by
      rw [Body.append, hgrow]
      show b'.strcat t = _
      rw [Body.strcat, if_neg (by omega), hcat]
    refine Or.inr ⟨_, hrun, ⟨fun h => ⟨?_, ?_, ?_, _, rfl⟩, fun h => ⟨?_, ?_⟩, hb'.alloc⟩⟩
    all_goals rw [List.length_append] at h
    · show (b'.msgbodysize + t.length).bmod (2 ^ 32) = ((text ++ t).length : Int)
      rw [hsize, List.length_append, Int.bmod_eq_of_le (by omega) (by omega)]
      omega
    · show (text ++ t).length + 2 ≤ b'.bufAlloc
      rw [List.length_append]
      omega
    · show (text ++ t ++ 0 :: rest.drop t.length).length = b'.bufAlloc
      rw [← hlen, hcells]
      simp only [List.length_append, List.length_cons, List.length_drop]
      omega
    · show (b'.msgbodysize + t.length).bmod (2 ^ 32) = ((text ++ t).length : Int) - 2 ^ 32
      rw [hsize, List.length_append, Int.bmod]
      omega
    · rw [List.length_append]
      omega

/-- Behind 2^31 bytes nothing can be appended. -/
theorem append_over (heap : Heap) (hb : b.Holds text) (hle : 2 ^ 31 ≤ text.length) (ht : t.length ≤ 1023) :
    b.append heap t = .error .refused ∨ b.append heap t = .error .outOfBounds := by
  obtain ⟨hsize, hbound⟩ := hb.long hle
  have halloc := hb.alloc
  have hneg : b.msgbodysize < 0 := by omega
  have hgrow : (b.bufAlloc : Int) < (b.msgbodysize + t.length + 2) % 2 ^ 64 := by omega
  rw [Body.append, Body.grow, if_pos hgrow]
  dsimp only
  cases heap.realloc b.msgbody ((b.bufAlloc + 131072) % 2 ^ 32) with
  | none => exact Or.inl rfl
  | some msgbody =>
      refine Or.inr ?_
      show Body.strcat _ t = _
      rw [Body.strcat, if_pos hneg]

theorem short_cons : Short n (t :: texts) ↔ n < 2 ^ 31 ∧ Short (n + t.length) texts := by
  unfold Short
  cases texts with
  | nil => simp
  | cons u us =>
      rw [List.dropLast_cons_of_ne_nil (List.cons_ne_nil u us), List.flatten_cons, List.length_append]
      simp only [reduceCtorEq, false_or]
      omega

/-- A text is appended, and then others. -/
theorem append_then {next : Body → Except Failure Body} {P : Prop} (hb : b.Holds text) (ht : t.length ≤ 1023)
    (hnext : ∀ b', b'.Holds (text ++ t) → next b' ≠ .error .refused →
      (next b' ≠ .error .outOfBounds ↔ P ∧ Short (text ++ t).length texts))
    (hrun : (b.append heap t).bind next ≠ .error .refused) :
    (b.append heap t).bind next ≠ .error .outOfBounds ↔ P ∧ Short text.length (t :: texts) := by
  rw [short_cons]
  by_cases hlt : text.length < 2 ^ 31
  · obtain hrefused | ⟨b', happend, hb'⟩ := append_run heap hb hlt ht
    · rw [hrefused] at hrun
      exact absurd rfl hrun
    · rw [happend] at hrun ⊢
      rw [and_iff_right hlt, ← List.length_append]
      exact hnext b' hb' hrun
  · obtain hrefused | hout := append_over heap hb (Nat.le_of_not_lt hlt) ht
    · rw [hrefused] at hrun
      exact absurd rfl hrun
    · rw [hout]
      exact iff_of_false (fun hne => hne rfl) fun hshort => hlt hshort.2.1

/-! ### Behind the header -/

theorem dataLoop_done (line : List Byte) (lines : List (List Byte)) :
    dataLoop env heap now sender h true b (line :: lines) =
      if isDot line then .ok b
      else (b.append heap line).bind fun b => dataLoop env heap now sender h true b lines := rfl

/-- The lines up to the dot are appended. -/
theorem body_run (hlines : ∀ line ∈ lines, line.length ≤ 1023) (hb : b.Holds text)
    (hrun : dataLoop env heap now sender h true b lines ≠ .error .refused) :
    dataLoop env heap now sender h true b lines ≠ .error .outOfBounds ↔ Short text.length (upToDot lines) := by
  induction lines generalizing b text with
  | nil =>
      refine iff_of_true ?_ (Or.inl rfl)
      intro hlost
      cases hlost
  | cons line lines ih =>
      obtain ⟨hline, hlines⟩ := List.forall_mem_cons.mp hlines
      rw [dataLoop_done] at hrun ⊢
      rw [upToDot, List.takeWhile_cons]
      cases hdot : isDot line with
      | true =>
          refine iff_of_true ?_ (Or.inl rfl)
          intro hdone
          cases hdone
      | false =>
          rw [hdot, if_neg Bool.false_ne_true] at hrun
          rw [if_neg Bool.false_ne_true, Bool.not_false, if_pos rfl, ← true_and (Short _ _)]
          refine append_then hb hline ?_ hrun
          intro b' hb' hrun'
          rw [true_and]
          exact ih hlines hb' hrun'

/-! ### The headers that are missing -/

theorem insertHeaders_eq : insertHeaders env now sender h =
    (missing env now sender h).foldlM (strncatf · 1024 ·) (List.replicate 1024 0) := by
  unfold insertHeaders missing
  generalize List.replicate 1024 (0 : Byte) = outbuf
  cases h.sender.isEmpty <;> cases h.date.isEmpty <;> cases h.messageId.isEmpty <;> simp

theorem str_zeros (n : Nat) : Memory.str 0 (List.replicate (n + 1) (0 : Byte)) 0 = some [] := by
  have hcells : (List.replicate (n + 1) (0 : Byte)).drop 0 = [] ++ 0 :: List.replicate n 0 := rfl
  exact Memory.str_run hcells List.not_mem_nil

/-- A line in an empty buffer. -/
theorem strncatf_first (n : Nat) (t : List Byte) : ∃ out, strncatf (List.replicate (n + 1) 0) (n + 1) t = some out ∧
    out.length = n + 1 ∧ Memory.str 0 out 0 = some (cstr (t.take n)) := by
  obtain ⟨k, hk⟩ : ∃ k, (t.take n).length + k = n := Nat.exists_eq_add_of_le' (List.length_take_le n t) |>.imp
    fun k hk => by omega
  have hempty := str_zeros n
  have hlen : (t.take n ++ [0]).length ≤ n + 1 := by
    rw [List.length_append, List.length_singleton]
    omega
  have hzeros : n + 1 - (t.take n ++ [0]).length = k := by
    rw [List.length_append, List.length_singleton]
    omega
  have hcells : t.take n ++ [0] ++ List.replicate k 0 = t.take n ++ List.replicate k 0 ++ ([0] ++ []) := by
    rw [List.append_assoc, List.append_assoc, List.append_nil, ← List.replicate_one, List.replicate_append_replicate,
      List.replicate_append_replicate, Nat.add_comm]
  have hend : (t.take n ++ List.replicate k (0 : Byte)).length = n := by
    rw [List.length_append, List.length_replicate, hk]
  have hlast := Memory.write_over [(0 : Byte)] [0] rfl (t.take n ++ List.replicate k 0) []
  rw [hend] at hlast
  refine ⟨t.take n ++ List.replicate k 0 ++ ([0] ++ []), ?_, ?_, ?_⟩
  · rw [strncatf, hempty, Option.bind_eq_bind, Option.bind_some]
    dsimp only
    rw [Nat.add_sub_cancel, List.length_nil, Memory.write_zero, if_pos hlen, Option.bind_some, hzeros, hcells,
      Nat.zero_add, hlast]
  · rw [List.length_append, hend]
    rfl
  · rw [← hcells, List.append_assoc, List.singleton_append, Memory.str, List.drop_zero,
      if_pos (List.mem_append_right _ List.mem_cons_self)]
    exact congrArg some (cstr_append_zero _ _)

/-- Behind a text, the last byte of `maxlen` is outside. -/
theorem strncatf_second (hlen : dest.length = 1024) (hstr : Memory.str 0 dest 0 = some text) (hne : text ≠ [])
    (t : List Byte) : strncatf dest 1024 t = none := by
  have hpos : 0 < text.length := List.length_pos_of_ne_nil hne
  rw [strncatf, hstr, Option.bind_eq_bind, Option.bind_some]
  dsimp only
  cases hwrite : Memory.write dest text.length (t.take (1024 - 1) ++ [0]) with
  | none => rfl
  | some dest' =>
      rw [Option.bind_some, Memory.write, if_neg]
      rw [Memory.write_length hwrite, hlen, List.length_singleton]
      omega

/-- None of the lines is empty. -/
theorem cstr_missing (ht : t ∈ missing env now sender h) : cstr (t.take 1023) ≠ [] := by
  have hstart : ∀ c l, c ≠ 0 → cstr ((c :: l).take 1023) ≠ [] := by
    intro c l hc
    rw [List.take_succ_cons, cstr]
    simp [hc]
  have hform : ∃ c l, t = c :: l ∧ c ≠ 0 := by
    simp only [missing, List.mem_append] at ht
    obtain (ht | ht) | ht := ht
    all_goals split at ht
    · rw [List.mem_singleton.mp ht]
      exact ⟨ch 'F', _, rfl, by decide⟩
    · cases ht
    · obtain rfl | ht := List.mem_cons.mp ht
      · exact ⟨ch 'D', _, rfl, by decide⟩
      · rw [List.mem_singleton.mp ht]
        exact ⟨ch 'D', _, rfl, by decide⟩
    · cases ht
    · rw [List.mem_singleton.mp ht]
      exact ⟨ch 'M', _, rfl, by decide⟩
    · cases ht
  obtain ⟨c, l, rfl, hc⟩ := hform
  exact hstart c l hc

theorem missing_length : (missing env now sender h).length ≤ 1 ↔ OneMissing h := by
  unfold missing OneMissing
  cases h.sender <;> cases h.date <;> cases h.messageId <;> simp

/-- One line is inserted at most. -/
theorem insert_run (b : Body) : b.insert heap (insertHeaders env now sender h) =
    if OneMissing h then
      if (missing env now sender h).isEmpty then .ok b else b.append heap (insertedText env now sender h)
    else .error .outOfBounds := by
  rw [insertHeaders_eq, Body.insert, insertedText]
  cases hmissing : missing env now sender h with
  | nil =>
      have hone : OneMissing h := by
        rw [← @missing_length env now sender, hmissing]
        exact Nat.zero_le 1
      rw [if_pos hone, List.foldlM_nil, Option.pure_def, Option.bind_some, str_zeros 1023]
      rfl
  | cons t ts =>
      have hne : cstr (t.take 1023) ≠ [] :=
        @cstr_missing env now sender h t (by rw [hmissing]; exact List.mem_cons_self)
      obtain ⟨out, hfirst, hlen, hstr⟩ := strncatf_first 1023 t
      rw [List.foldlM_cons, hfirst, Option.bind_eq_bind, Option.bind_some]
      cases ts with
      | nil =>
          have hone : OneMissing h := by
            rw [← @missing_length env now sender, hmissing]
            exact Nat.le_refl 1
          rw [if_pos hone, List.foldlM_nil, Option.pure_def, Option.bind_some, hstr]
          simp [hne]
      | cons u us =>
          have hmore : ¬ OneMissing h := by
            rw [← @missing_length env now sender, hmissing, List.length_cons, List.length_cons]
            omega
          rw [if_neg hmore, List.foldlM_cons, strncatf_second hlen hstr hne]
          rfl

theorem insertedText_length (hone : OneMissing h) : (insertedText env now sender h).length ≤ 1023 := by
  rw [← @missing_length env now sender] at hone
  rw [insertedText]
  cases hmissing : missing env now sender h with
  | nil => exact Nat.zero_le _
  | cons t ts =>
      rw [hmissing, List.length_cons] at hone
      obtain rfl : ts = [] := List.length_eq_zero_iff.mp (by omega)
      rw [List.flatMap_singleton]
      exact (List.takeWhile_prefix _).length_le.trans (List.length_take_le 1023 t)

/-! ### The loop -/

/-- A line of the header is kept and appended; in front of the line that ends it, the headers are inserted. -/
theorem dataLoop_header (line : List Byte) (lines : List (List Byte)) :
    dataLoop env heap now sender h false b (line :: lines) =
      if isBlank line || isDot line then
        (b.insert heap (insertHeaders env now sender h)).bind fun b =>
          dataLoop env heap now sender h true b (line :: lines)
      else (b.append heap line).bind fun b => dataLoop env heap now sender (kept h line) false b lines := by
  by_cases hend : (isBlank line || isDot line) = true
  · obtain ⟨hfrom, hdate, hid⟩ := blank_starts hend
    rw [dataLoop, hfrom, hdate, hid, hend]
    cases b.insert heap (insertHeaders env now sender h) <;> rfl
  · have hdot : isDot line = false := by
      cases hdot : isDot line with
      | false => rfl
      | true =>
          rw [hdot, Bool.or_true] at hend
          exact absurd rfl hend
    rw [dataLoop, if_neg hend, if_neg hend, kept, hdot]
    by_cases hfrom : startsWith line "From: " = true
    · rw [if_pos hfrom, if_pos hfrom]
      rfl
    · rw [if_neg hfrom, if_neg hfrom]
      by_cases hdate : startsWith line "Date: " = true
      · rw [if_pos hdate, if_pos hdate]
        rfl
      · rw [if_neg hdate, if_neg hdate]
        by_cases hid : startsWith line "Message-ID: " = true
        · rw [if_pos hid, if_pos hid]
          rfl
        · rw [if_neg hid, if_neg hid]
          rfl

/-- The whole message, from a line of the header on. -/
theorem header_run (hlines : ∀ line ∈ lines, line.length ≤ 1023) (hb : b.Holds text)
    (hrun : dataLoop env heap now sender h false b lines ≠ .error .refused) :
    dataLoop env heap now sender h false b lines ≠ .error .outOfBounds ↔
      (∀ h', headerSeen h lines = some h' → OneMissing h') ∧
        Short text.length (appended env now sender h lines) := by
  induction lines generalizing h b text with
  | nil =>
      refine iff_of_true ?_ ⟨?_, Or.inl rfl⟩
      · intro hlost
        cases hlost
      · intro h' hseen
        cases hseen
  | cons line lines ih =>
      obtain ⟨hline, hrest⟩ := List.forall_mem_cons.mp hlines
      rw [dataLoop_header] at hrun ⊢
      rw [headerSeen, appended]
      by_cases hend : (isBlank line || isDot line) = true
      · rw [if_pos hend] at hrun
        have hseen : (∀ h', some h = some h' → OneMissing h') ↔ OneMissing h :=
          ⟨fun hall => hall h rfl, fun hone h' heq => Option.some.inj heq ▸ hone⟩
        rw [if_pos hend, if_pos hend, if_pos hend, hseen]
        rw [insert_run] at hrun ⊢
        by_cases hone : OneMissing h
        · rw [if_pos hone] at hrun ⊢
          cases hempty : (missing env now sender h).isEmpty with
          | true =>
              rw [hempty, if_pos rfl] at hrun
              rw [if_pos rfl, if_pos rfl, List.nil_append, and_iff_right hone]
              exact body_run hlines hb hrun
          | false =>
              rw [hempty, if_neg Bool.false_ne_true] at hrun
              rw [if_neg Bool.false_ne_true, if_neg Bool.false_ne_true, List.singleton_append]
              refine append_then hb (insertedText_length hone) ?_ hrun
              intro b' hb' hrun'
              rw [and_iff_right hone]
              exact body_run hlines hb' hrun'
        · rw [if_neg hone]
          exact iff_of_false (fun hne => hne rfl) fun h => hone h.1
      · rw [if_neg hend] at hrun
        rw [if_neg hend, if_neg hend, if_neg hend]
        exact append_then hb hline (fun b' hb' hrun' => ih hrest hb' hrun') hrun

/-! ### Sessions -/

theorem newBody_holds : newBody.Holds [] where
  fits _ := ⟨rfl, by decide, List.length_replicate, List.replicate 65535 0, rfl⟩
  long h := absurd h (by decide)
  alloc := by decide

theorem dataLines_length {s : Session} (hsound : s.conn.socket.Sound) : ∀ line ∈ dataLines s, line.length ≤ 1023 := by
  intro line hline
  obtain ⟨l, hl, rfl⟩ := List.mem_map.mp hline
  obtain ⟨p, hp, rfl⟩ := List.mem_map.mp hl
  rw [(fgetsCalls_run (by decide) hsound).1] at hp
  obtain ⟨r, -, rfl⟩ := exists_of_mem_pieces (by decide) (List.mem_filter.mp (List.mem_of_mem_take hp)).1
  calc (cstr ((piece Octet.isLf 1023 r).map Octet.byte)).length
      ≤ ((piece Octet.isLf 1023 r).map Octet.byte).length := (List.takeWhile_prefix _).length_le
    _ = (piece Octet.isLf 1023 r).length := List.length_map _
    _ ≤ 1023 := piece_length_le 1023 r

theorem smtpData_iff {s : Session} (hsound : s.conn.socket.Sound)
    (hmem : smtpData env heap now s ≠ .error .refused) :
    smtpData env heap now s ≠ .error .outOfBounds ↔
      (∀ h, headerSeen {} (dataLines s) = some h → OneMissing h) ∧
        Short 0 (appended env now s.mconn.sender {} (dataLines s)) :=
  header_run (dataLines_length hsound) newBody_holds hmem

end

/-- Unless `realloc` fails, all writes are inside of the two buffers just if at most one line is inserted, and fewer
than 2^31 bytes are in the message where the last text is appended to it. -/
theorem inserted_iff (env : Env) (heap : Heap) (now : Nat) (s : Session) (hsound : s.conn.socket.Sound)
    (hmem : smtpData env heap now s ≠ .error .refused) :
    smtpData env heap now s ≠ .error .outOfBounds ↔
      (∀ h, headerSeen {} (dataLines s) = some h → OneMissing h) ∧
        Short 0 (appended env now s.mconn.sender {} (dataLines s)) :=
  smtpData_iff hsound hmem

section

variable {env : Env} {heap : Heap} {now : Nat} {sender : List Byte} {h : Msgheader}

/-- Nothing is refused. -/
abbrev Granted (x : Except Failure Body) : Prop := Returns (fun _ => True) (· ≠ Failure.refused) x

theorem append_granted (hgrants : ∀ n, heap.grants n = true) (b : Body) (t : List Byte) :
    Granted (b.append heap t) := by
  have hstrcat : ∀ b : Body, Granted (b.strcat t) := by
    intro b
    unfold Body.strcat
    split
    · exact Failure.noConfusion
    · split
      · exact trivial
      · exact Failure.noConfusion
  refine Returns.bind (B := fun _ => True) ?_ fun b' _ => hstrcat b'
  unfold Body.grow
  split
  · dsimp only
    rw [Heap.realloc, if_pos (hgrants _)]
    exact trivial
  · exact trivial

theorem insert_granted (hgrants : ∀ n, heap.grants n = true) (b : Body) :
    Granted (b.insert heap (insertHeaders env now sender h)) := by
  rw [insert_run]
  split
  · split
    · exact trivial
    · exact append_granted hgrants b _
  · exact Failure.noConfusion

theorem body_granted (hgrants : ∀ n, heap.grants n = true) (b : Body) (lines : List (List Byte)) :
    Granted (dataLoop env heap now sender h true b lines) := by
  induction lines generalizing b with
  | nil => exact Failure.noConfusion
  | cons line lines ih =>
      rw [dataLoop_done]
      split
      · exact trivial
      · exact Returns.bind (append_granted hgrants b line) fun b' _ => ih b'

/-- With enough memory the message is not refused. -/
theorem header_granted (hgrants : ∀ n, heap.grants n = true) (b : Body) (lines : List (List Byte)) :
    Granted (dataLoop env heap now sender h false b lines) := by
  induction lines generalizing h b with
  | nil => exact Failure.noConfusion
  | cons line lines ih =>
      rw [dataLoop_header]
      split
      · exact Returns.bind (insert_granted hgrants b) fun b' _ => body_granted hgrants b' _
      · exact Returns.bind (append_granted hgrants b line) fun b' _ => ih b'

theorem smtpData_granted (hgrants : ∀ n, heap.grants n = true) (s : Session) :
    smtpData env heap now s ≠ .error .refused := by
  intro hrefused
  have hgranted : Granted (smtpData env heap now s) := header_granted hgrants newBody (dataLines s)
  rw [hrefused] at hgranted
  exact hgranted rfl

end

/-- A machine with enough memory. -/
def ample : Heap := ⟨fun _ => true, fun _ => 0⟩

/-- A message without `From:`. -/
theorem inserted_from :
    smtpData goodEnv ample 0 (mailing (bytes "Date: a\r\nMessage-ID: b\r\n\r\nc\r\n.\r\n")) ≠ .error .outOfBounds :=
  (inserted_iff goodEnv ample 0 _ (mailing_sound _) (smtpData_granted (fun _ => rfl) _)).mpr
    ⟨by decide +kernel, .inr (by decide +kernel)⟩

/-- A message without headers. -/
theorem not_inserted_bare : ¬ ∀ (env : Env) (heap : Heap) (now : Nat) (s : Session), s.conn.socket.Sound →
    smtpData env heap now s ≠ .error .refused → smtpData env heap now s ≠ .error .outOfBounds := by
  intro hall
  have hsound := mailing_sound (bytes "\r\na\r\n.\r\n")
  have hmem := @smtpData_granted goodEnv ample 0 (fun _ => rfl) (mailing (bytes "\r\na\r\n.\r\n"))
  have hone := ((smtpData_iff hsound hmem).mp (hall goodEnv ample 0 _ hsound hmem)).1 {} (by decide +kernel)
  exact hone.1 rfl

end NullG.Smtpd.Inserted
