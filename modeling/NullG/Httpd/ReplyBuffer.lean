/-
The buffer of a reply (`flushbuffer` and `prints` of `httpd_io.c`, `htnsp_flush` of `httpd_nsp.c`).

Here `replybuf` is the array itself, and a write past its end is a fault. Where the array has its size and the counter
is in front of its last byte, a call does what it does on the bytes in front of the counter (`Op.run`), which are in
order behind those that were sent (`bytes_buffered`).
-/

import NullG.Httpd.Response
import NullG.Lib.Except
import NullG.Lib.Memory
import NullG.Mail.Lines

namespace NullG.Httpd

open NullG.Lib NullG.Nsp NullG.Mail

/-- `conn->dat` with its buffer; `conn` is the rest of the connection, where `Reply.replybuf` is not in use. -/
structure ReplyMem where
  conn : Reply
  replybuf : List Byte
  replybuflen : Nat
  deriving DecidableEq

namespace ReplyMem

/-- What `calloc` gives a request. -/
def fresh (conn : Reply) : ReplyMem := ⟨conn, List.replicate maxReplysize 0, 0⟩

/-- A write at `replybuf + pos`. -/
def write (pos : Nat) (text : List Byte) (m : ReplyMem) : Except Fault ReplyMem :=
  match Memory.write m.replybuf pos text with
  | some replybuf => .ok { m with replybuf := replybuf }
  | none => .error .outOfBounds

/-- `flushbuffer`. -/
def flushbuffer (m : ReplyMem) : Except Fault ReplyMem :=
  let conn := flushheader m.conn
  if m.replybuflen < 1 then .ok { m with conn := conn }
  else if m.replybuf.length < m.replybuflen then .error .outOfBounds
  else
    .ok {
      conn := flushLoop m.replybuflen (m.replybuf.take m.replybuflen) { conn with flushed := true }
      replybuf := List.replicate maxReplysize 0
      replybuflen := 0 }

/-- The buffer is flushed where it has no room for one more `smallbuf`. -/
def flushFull (m : ReplyMem) : Except Fault ReplyMem :=
  if m.replybuflen + 4096 > maxReplysize - 2 then m.flushbuffer else .ok m

/-- `prints`, of a text that is formatted. -/
def prints (text : List Byte) (m : ReplyMem) : Except Fault ReplyMem := do
  -- `strlen` and `strcpy` stop at a NUL
  let buffer := cstr (snprintf 4095 text)
  let m ← { m with conn := { m.conn with bytecount := m.conn.bytecount + buffer.length } }.flushFull
  let m ← m.write m.replybuflen (buffer ++ [0])
  { m with replybuflen := m.replybuflen + buffer.length }.flushFull

/-- The loop of `htnsp_flush`. -/
def flushOut : Nat → List Byte → ReplyMem → Except Fault ReplyMem
  | 0, _, _ => .error .stuck
  | n + 1, outbuffer, m => do
      let b : Int := maxReplysize - m.replybuflen - 1
      if b < 512 then
        let m ← m.flushbuffer
        if outbuffer = [] then return m else flushOut n outbuffer m
      else
        let b := b.toNat
        let m ← m.write m.replybuflen (outbuffer.take b)
        let m := { m with
          replybuflen := m.replybuflen + (outbuffer.take b).length
          conn := { m.conn with bytecount := m.conn.bytecount + (outbuffer.take b).length } }
        let m ← m.write m.replybuflen [0]
        if outbuffer.drop b = [] then return m else flushOut n (outbuffer.drop b) m

/-- `htnsp_flush`, of what a script has written. -/
def htnspFlush (outbuffer : List Byte) (m : ReplyMem) : Except Fault ReplyMem := do
  let m ← flushOut (2 * outbuffer.length + 1) outbuffer m
  if m.replybuflen = 0 then return m else m.flushbuffer

end ReplyMem

/-- A call that writes the body. -/
inductive BodyCall where
  | prints (text : List Byte)
  | htnspFlush (outbuffer : List Byte)
  | flushbuffer

/-- A call, on the array. -/
def BodyCall.run (m : ReplyMem) : BodyCall → Except Fault ReplyMem
  | .prints text => m.prints text
  | .htnspFlush outbuffer => m.htnspFlush outbuffer
  | .flushbuffer => m.flushbuffer

/-- The same call, on the bytes in front of the counter. -/
def BodyCall.op : BodyCall → Op
  | .prints text => .prints (cstr text)
  | .htnspFlush outbuffer => .htnspFlush outbuffer
  | .flushbuffer => .flushbuffer

/-- What a call adds to the body. -/
def BodyCall.text : BodyCall → List Byte
  | .prints text => (cstr text).take 4094
  | .htnspFlush outbuffer => outbuffer
  | .flushbuffer => []

section

variable {m m' : ReplyMem} {r : Reply}

/-- The array has its size, and the counter is in front of its last byte. -/
structure ReplyMem.Sized (m : ReplyMem) : Prop where
  size : m.replybuf.length = maxReplysize
  room : m.replybuflen ≤ maxReplysize - 1

/-- The bytes in front of the counter. -/
def ReplyMem.buffered (m : ReplyMem) : List Byte := m.replybuf.take m.replybuflen

/-- The connection without the array. -/
def ReplyMem.reply (m : ReplyMem) : Reply := { m.conn with replybuf := m.buffered }

theorem ReplyMem.sized_fresh (conn : Reply) : (ReplyMem.fresh conn).Sized :=
  ⟨List.length_replicate, Nat.zero_le _⟩

theorem ReplyMem.Sized.length (h : m.Sized) : m.reply.replybuf.length = m.replybuflen := by
  have hlen : m.replybuflen ≤ maxReplysize - 1 := h.room
  show (m.replybuf.take m.replybuflen).length = m.replybuflen
  rw [List.length_take, h.size]
  unfold maxReplysize at *
  omega

theorem flushheader_replybuf (r : Reply) (replybuf : List Byte) :
    flushheader { r with replybuf := replybuf } = { flushheader r with replybuf := replybuf } := by
  unfold flushheader
  split
  · rfl
  · split <;> rfl

theorem flushLoop_replybuf (n : Nat) (pTemp : List Byte) (r : Reply) (replybuf : List Byte) :
    flushLoop n pTemp { r with replybuf := replybuf } = { flushLoop n pTemp r with replybuf := replybuf } := by
  induction n generalizing pTemp r with
  | zero => rfl
  | succ n ih =>
      rw [flushLoop, flushLoop]
      split
      · rfl
      · exact ih (pTemp.drop (tcpSend (pTemp.take 4096) r).1) (tcpSend (pTemp.take 4096) r).2

/-! ### The calls on the array -/

theorem ReplyMem.flushbuffer_run (h : m.Sized) :
    ∃ m', m.flushbuffer = .ok m' ∧ m'.Sized ∧ m'.reply = Httpd.flushbuffer m.reply ∧ m'.replybuflen = 0 := by
  have hlength := h.length
  unfold ReplyMem.flushbuffer Httpd.flushbuffer
  dsimp only
  have hhead : flushheader m.reply = { flushheader m.conn with replybuf := m.buffered } := flushheader_replybuf _ _
  rw [hhead]
  dsimp only
  split
  · rename_i hzero
    have hnil : m.buffered = [] := List.length_eq_zero_iff.mp (hlength.trans (by omega))
    rw [if_pos hnil]
    exact ⟨_, rfl, ⟨h.size, h.room⟩, rfl, Nat.lt_one_iff.mp hzero⟩
  · rename_i hpos
    have hne : m.buffered ≠ [] := fun hnil => by
      have hzero : m.buffered.length = m.replybuflen := hlength
      rw [hnil] at hzero
      exact hpos (by rw [← hzero]; exact Nat.zero_lt_one)
    have hread : ¬ m.replybuf.length < m.replybuflen := by
      have hroom := h.room
      rw [h.size]
      unfold maxReplysize at *
      omega
    rw [if_neg hread, if_neg hne]
    refine ⟨_, rfl, ⟨List.length_replicate, Nat.zero_le _⟩, ?_, rfl⟩
    have hlen : m.buffered.length = m.replybuflen := hlength
    have hloop := flushLoop_replybuf m.replybuflen m.buffered { flushheader m.conn with flushed := true } m.buffered
    rw [hlen, hloop]
    rfl

theorem ReplyMem.flushFull_run (h : m.Sized) :
    ∃ m', m.flushFull = .ok m' ∧ m'.Sized ∧ m'.reply = Httpd.flushFull m.reply ∧
      m'.replybuflen + 4096 ≤ maxReplysize - 2 := by
  unfold ReplyMem.flushFull Httpd.flushFull
  rw [h.length]
  split
  · obtain ⟨m', hrun, hsized, hreply, hzero⟩ := ReplyMem.flushbuffer_run h
    exact ⟨m', hrun, hsized, hreply, by rw [hzero]; decide⟩
  · rename_i hroom
    exact ⟨m, rfl, h, rfl, Nat.le_of_not_lt hroom⟩

/-- A text that fits in front of the last byte is appended. -/
theorem ReplyMem.write_run (h : m.Sized) (text behind : List Byte)
    (hroom : m.replybuflen + text.length + behind.length ≤ maxReplysize) :
    ∃ replybuf, m.write m.replybuflen (text ++ behind) = .ok { m with replybuf := replybuf } ∧
      replybuf.length = maxReplysize ∧ replybuf.take (m.replybuflen + text.length) = m.buffered ++ text := by
  have hfits : m.replybuflen + (text ++ behind).length ≤ m.replybuf.length := by
    rw [h.size, List.length_append]
    omega
  have hwrite := Memory.write_of_le hfits
  refine ⟨_, ?_, (Memory.write_length hwrite).trans h.size, Memory.take_write hwrite⟩
  unfold ReplyMem.write
  rw [hwrite]

theorem ReplyMem.prints_run (h : m.Sized) (text : List Byte) :
    ∃ m', m.prints text = .ok m' ∧ m'.Sized ∧ m'.reply = Httpd.prints (cstr text) m.reply := by
  have hbuffer : cstr (snprintf 4095 text) = snprintf 4095 (cstr text) := by
    unfold cstr snprintf
    exact List.take_takeWhile.symm
  have hshort : (snprintf 4095 (cstr text)).length ≤ 4094 := List.length_take_le _ _
  unfold ReplyMem.prints Httpd.prints
  rw [hbuffer]
  generalize snprintf 4095 (cstr text) = buffer at hshort ⊢
  obtain ⟨m₁, hrun₁, hsized₁, hreply₁, hroom₁⟩ := ReplyMem.flushFull_run
    (m := { m with conn := { m.conn with bytecount := m.conn.bytecount + buffer.length } }) ⟨h.size, h.room⟩
  obtain ⟨replybuf, hwrite, hsize, htake⟩ := ReplyMem.write_run hsized₁ buffer [0]
    (by rw [List.length_singleton]; unfold maxReplysize at *; omega)
  have hsized₂ : ReplyMem.Sized
      { m₁ with replybuf := replybuf, replybuflen := m₁.replybuflen + buffer.length } :=
    ⟨hsize, show m₁.replybuflen + buffer.length ≤ maxReplysize - 1 by unfold maxReplysize at *; omega⟩
  obtain ⟨m₂, hrun₂, hsized₃, hreply₂, -⟩ := ReplyMem.flushFull_run hsized₂
  refine ⟨m₂, ?_, hsized₃, ?_⟩
  · dsimp only
    rw [hrun₁, ok_bind, hwrite, ok_bind]
    exact hrun₂
  · rw [hreply₂]
    dsimp only
    have hfirst : Httpd.flushFull { m.reply with bytecount := m.reply.bytecount + buffer.length } = m₁.reply :=
      hreply₁.symm
    rw [hfirst]
    refine congrArg Httpd.flushFull ?_
    show { m₁.conn with replybuf := replybuf.take (m₁.replybuflen + buffer.length) } = _
    rw [htake]
    rfl

/-- The loop of `htnsp_flush` has rounds enough. -/
theorem ReplyMem.flushOut_run {n : Nat} {outbuffer : List Byte} (h : m.Sized) (hpos : 1 ≤ n)
    (hn : 2 * outbuffer.length + (if maxReplysize - m.replybuflen - 1 < 512 then 1 else 0) ≤ n) :
    ∃ m', m.flushOut n outbuffer = .ok m' ∧ m'.Sized ∧ m'.reply = Httpd.flushOut n outbuffer m.reply := by
  induction n generalizing outbuffer m with
  | zero => cases hpos
  | succ n ih =>
      have hroom := h.room
      have hb : ((maxReplysize : Int) - m.replybuflen - 1 < 512) ↔ maxReplysize - m.replybuflen - 1 < 512 := by
        unfold maxReplysize at *
        omega
      have htoNat : ((maxReplysize : Int) - m.replybuflen - 1).toNat = maxReplysize - m.replybuflen - 1 := by
        unfold maxReplysize at *
        omega
      unfold ReplyMem.flushOut Httpd.flushOut
      dsimp only
      rw [h.length, htoNat]
      by_cases hfull : maxReplysize - m.replybuflen - 1 < 512
      · rw [if_pos (hb.mpr hfull), if_pos hfull]
        rw [if_pos hfull] at hn
        obtain ⟨m₁, hrun₁, hsized₁, hreply₁, hzero₁⟩ := ReplyMem.flushbuffer_run h
        rw [hrun₁, ok_bind]
        by_cases hnil : outbuffer = []
        · rw [if_pos hnil, if_pos hnil]
          exact ⟨m₁, rfl, hsized₁, hreply₁⟩
        · rw [if_neg hnil, if_neg hnil, ← hreply₁]
          have hlen := List.length_pos_of_ne_nil hnil
          have hempty : ¬ maxReplysize - m₁.replybuflen - 1 < 512 := by
            rw [hzero₁]
            decide
          exact ih hsized₁ (by omega) (by rw [if_neg hempty]; omega)
      · rw [if_neg fun hlt => hfull (hb.mp hlt), if_neg hfull]
        rw [if_neg hfull] at hn
        generalize hbdef : maxReplysize - m.replybuflen - 1 = b at hfull ⊢
        have hshort : (outbuffer.take b).length ≤ b := List.length_take_le _ _
        obtain ⟨replybuf, hwrite, hsize, htake⟩ := ReplyMem.write_run h (outbuffer.take b) []
          (by rw [List.length_nil]; unfold maxReplysize at *; omega)
        rw [List.append_nil] at hwrite
        rw [hwrite, ok_bind]
        have hsized₁ : ReplyMem.Sized
            { m with
              replybuf := replybuf
              replybuflen := m.replybuflen + (outbuffer.take b).length
              conn := { m.conn with bytecount := m.conn.bytecount + (outbuffer.take b).length } } :=
          ⟨hsize, show m.replybuflen + (outbuffer.take b).length ≤ maxReplysize - 1 by unfold maxReplysize at *; omega⟩
        obtain ⟨replybuf', hwrite', hsize', htake'⟩ := ReplyMem.write_run hsized₁ [] [0]
          (by
            have hroom₁ : m.replybuflen + (outbuffer.take b).length ≤ maxReplysize - 1 := hsized₁.room
            simp only [List.length_nil, List.length_singleton]
            unfold maxReplysize at *
            omega)
        rw [List.nil_append] at hwrite'
        rw [hwrite', ok_bind]
        rw [List.length_nil, Nat.add_zero, List.append_nil] at htake'
        have hreply : ReplyMem.reply
            { m with
              replybuf := replybuf'
              replybuflen := m.replybuflen + (outbuffer.take b).length
              conn := { m.conn with bytecount := m.conn.bytecount + (outbuffer.take b).length } } =
            { m.reply with
              replybuf := m.reply.replybuf ++ outbuffer.take b
              bytecount := m.reply.bytecount + (outbuffer.take b).length } := by
          show { m.conn with
            bytecount := m.conn.bytecount + (outbuffer.take b).length
            replybuf := replybuf'.take (m.replybuflen + (outbuffer.take b).length) } = _
          rw [htake']
          show { m.conn with
            bytecount := m.conn.bytecount + (outbuffer.take b).length
            replybuf := replybuf.take (m.replybuflen + (outbuffer.take b).length) } = _
          rw [htake]
          rfl
        rw [← hreply]
        by_cases hmore : outbuffer.drop b = []
        · rw [if_pos hmore, if_pos hmore]
          exact ⟨_, rfl, ⟨hsize', hsized₁.room⟩, rfl⟩
        · rw [if_neg hmore, if_neg hmore]
          have hlt : b < outbuffer.length := Nat.lt_of_not_le fun hle => hmore (List.drop_of_length_le hle)
          refine ih ⟨hsize', hsized₁.room⟩ (by omega) ?_
          rw [List.length_drop]
          split <;> omega

theorem ReplyMem.htnspFlush_run (h : m.Sized) (outbuffer : List Byte) :
    ∃ m', m.htnspFlush outbuffer = .ok m' ∧ m'.Sized ∧ m'.reply = Httpd.htnspFlush outbuffer m.reply := by
  obtain ⟨m₁, hrun₁, hsized₁, hreply₁⟩ := @ReplyMem.flushOut_run _ (2 * outbuffer.length + 1)
    outbuffer h (by omega) (by split <;> omega)
  have hempty : (m₁.reply.replybuf = []) ↔ m₁.replybuflen = 0 := by
    rw [← List.length_eq_zero_iff, hsized₁.length]
  unfold ReplyMem.htnspFlush Httpd.htnspFlush
  rw [hrun₁, ok_bind, ← hreply₁]
  dsimp only
  by_cases hzero : m₁.replybuflen = 0
  · rw [if_pos hzero, if_pos (hempty.mpr hzero)]
    exact ⟨m₁, rfl, hsized₁, rfl⟩
  · rw [if_neg hzero, if_neg fun hnil => hzero (hempty.mp hnil)]
    obtain ⟨m₂, hrun₂, hsized₂, hreply₂, -⟩ := ReplyMem.flushbuffer_run hsized₁
    exact ⟨m₂, hrun₂, hsized₂, hreply₂⟩

/-- A call does on the array what it does on the bytes in front of the counter. -/
theorem BodyCall.run_op (h : m.Sized) (call : BodyCall) :
    ∃ m', call.run m = .ok m' ∧ m'.Sized ∧ m'.reply = call.op.run m.reply := by
  cases call with
  | prints text => exact ReplyMem.prints_run h text
  | htnspFlush outbuffer => exact ReplyMem.htnspFlush_run h outbuffer
  | flushbuffer =>
      obtain ⟨m', hrun, hsized, hreply, -⟩ := ReplyMem.flushbuffer_run h
      exact ⟨m', hrun, hsized, hreply⟩

/-! ### The bytes of the body -/

/-- The bytes that were sent, and those in the buffer. -/
def Reply.bytes (r : Reply) : List Byte := r.body ++ r.replybuf

theorem flushbuffer_bytes (r : Reply) : (Httpd.flushbuffer r).bytes = r.bytes := by
  obtain ⟨flushed, counts, hrun⟩ := Httpd.flushbuffer_run r
  rw [hrun]
  exact List.append_nil _

theorem flushFull_bytes (r : Reply) : (Httpd.flushFull r).bytes = r.bytes := by
  unfold Httpd.flushFull
  split
  · exact flushbuffer_bytes r
  · rfl

theorem prints_bytes (text : List Byte) (r : Reply) : (Httpd.prints text r).bytes = r.bytes ++ snprintf 4095 text := by
  unfold Httpd.prints
  dsimp only
  have hfirst := flushFull_bytes { r with bytecount := r.bytecount + (snprintf 4095 text).length }
  generalize Httpd.flushFull { r with bytecount := r.bytecount + (snprintf 4095 text).length } = first at hfirst ⊢
  generalize snprintf 4095 text = buffer
  have hbytes : first.bytes = r.bytes := hfirst
  rw [flushFull_bytes, ← hbytes]
  exact (List.append_assoc ..).symm

theorem htnspFlush_bytes (outbuffer : List Byte) (r : Reply) :
    (Httpd.htnspFlush outbuffer r).bytes = r.bytes ++ outbuffer := by
  have hall : (Httpd.flushOut (2 * outbuffer.length + 1) outbuffer r).bytes = r.bytes ++ outbuffer :=
    flushOut_all (by split <;> omega)
  unfold Httpd.htnspFlush
  dsimp only
  split
  · exact hall
  · rw [flushbuffer_bytes, hall]

theorem BodyCall.op_bytes (call : BodyCall) (r : Reply) : (call.op.run r).bytes = r.bytes ++ call.text := by
  cases call with
  | prints text => exact prints_bytes (cstr text) r
  | htnspFlush outbuffer => exact htnspFlush_bytes outbuffer r
  | flushbuffer => exact (flushbuffer_bytes r).trans (List.append_nil _).symm

/-! ### A request -/

/-- The calls of a request. -/
def runCalls (calls : List BodyCall) (m : ReplyMem) : Except Fault ReplyMem := calls.foldlM BodyCall.run m

theorem runCalls_bytes (h : m.Sized) (calls : List BodyCall) :
    ∃ m', runCalls calls m = .ok m' ∧ m'.Sized ∧ m'.reply.bytes = m.reply.bytes ++ calls.flatMap BodyCall.text := by
  induction calls generalizing m with
  | nil => exact ⟨m, rfl, h, (List.append_nil _).symm⟩
  | cons call calls ih =>
      obtain ⟨m₁, hrun₁, hsized₁, hreply₁⟩ := BodyCall.run_op h call
      obtain ⟨m₂, hrun₂, hsized₂, hbytes₂⟩ := ih hsized₁
      refine ⟨m₂, ?_, hsized₂, ?_⟩
      · rw [runCalls, List.foldlM_cons, hrun₁, ok_bind]
        exact hrun₂
      · rw [hbytes₂, hreply₁, BodyCall.op_bytes, List.flatMap_cons, List.append_assoc]

/-- No call writes past the array, the counter stays in front of its last byte, and the body is what was printed, in
order: what was sent, and then what is in the buffer. -/
theorem bytes_buffered (calls : List BodyCall) (conn : Reply) :
    ∃ m, runCalls calls (.fresh conn) = .ok m ∧ m.replybuflen ≤ maxReplysize - 1 ∧ m.replybuf.length = maxReplysize ∧
      m.conn.body ++ m.replybuf.take m.replybuflen = conn.body ++ calls.flatMap BodyCall.text := by
  obtain ⟨m, hrun, hsized, hbytes⟩ := runCalls_bytes (ReplyMem.sized_fresh conn) calls
  have hstart : (ReplyMem.fresh conn).reply.bytes = conn.body := by
    rw [ReplyMem.reply, Reply.bytes, ReplyMem.buffered, ReplyMem.fresh, List.take_zero, List.append_nil]
  rw [hstart] at hbytes
  exact ⟨m, hrun, hsized.room, hsized.size, hbytes⟩

end

end NullG.Httpd
