/-
A response (`httpd_io.c`, and `send_header` of `httpd_http.c`).

The length that a header tells is the number of bytes that were counted when it is sent. So it is right where all that
was counted is still in the buffer, or is the file that is sent behind it, and where nothing comes after.
-/

import NullG.Httpd.Query

namespace NullG.Httpd

open NullG.Nsp NullG.Mail

/-! ### The header -/

/-- A value of `_HEADER`, as far as it is looked at. -/
inductive HeaderValue where
  | str (text : List Byte)
  | num (q : Nsp.Num)
  | bool (b : Bool)
  | other
  deriving DecidableEq

/-- `_HEADER`, in the order of the names. -/
abbrev HeaderTable := List (List Byte × HeaderValue)

/-- `nsp_tonum`, cast to `int`. -/
def HeaderValue.toInt : HeaderValue → Int
  | .str text => (Num.trunc (nAton (cstr text))).bmod (2 ^ 32)
  | .num q => (Num.trunc q).bmod (2 ^ 32)
  | .bool b => if b then 1 else 0
  | .other => 0

/-- `nsp_setstr(conn->N, hrobj, name, value, ...)`: the table is sorted. -/
def setHeader (name value : List Byte) : HeaderTable → HeaderTable
  | [] => [(name, .str value)]
  | (oname, old) :: t =>
      if oname = name then (name, .str value) :: t
      else if nameCmp name oname < 0 then (name, .str value) :: (oname, old) :: t
      else (oname, old) :: setHeader name value t

/-- What `flushheader` sends, before it is written as text. -/
structure Head where
  protocol : List Byte
  status : Int
  entries : HeaderTable
  contentLength : Option Int
  deriving DecidableEq

/-- A connection, as far as responses go: fields of `conn->dat` and of the request, `_HEADER`, and what was sent. -/
structure Reply where
  /-- `SERVER_PROTOCOL`, `HTTP_CONNECTION` and `HTTP_IF_MODIFIED_SINCE` -/
  protocol : List Byte
  httpConnection : List Byte := []
  ifModifiedSince : List Byte := []
  /-- the time of the response -/
  date : List Byte := []
  header : HeaderTable := []
  status : Int := 0
  headdone : Bool := false
  bodydone : Bool := false
  flushed : Bool := false
  bytecount : Int := 0
  contentLength : Int := -1
  /-- the first `replybuflen` bytes of `replybuf` -/
  replybuf : List Byte := []
  head : Option Head := none
  /-- what the connection has taken behind the header -/
  body : List Byte := []
  /-- how many bytes more than one the next calls of `tcp_send` take, at most; later ones take all -/
  counts : List Nat := []
  deriving DecidableEq

/-- `sizeof(replybuf)`. -/
def maxReplysize : Nat := 32768

/-- `CONNECTION`, as `flushheader` sets it. -/
def connectionValue (r : Reply) : List Byte :=
  if r.status < 200 ∨ r.status ≥ 400 then bytes "Close"
  else if sameText r.httpConnection (bytes "Keep-Alive") ∧ r.bodydone then bytes "Keep-Alive"
  else if r.httpConnection = [] ∧ r.bodydone ∧ sameText r.protocol (bytes "HTTP/1.1") then bytes "Keep-Alive"
  else bytes "Close"

/-- `PROTOCOL`, as `flushheader` sets it. -/
def protocolValue (r : Reply) : List Byte :=
  if r.protocol.tails.any (startsWith · "HTTP/1.1") then bytes "HTTP/1.1" else bytes "HTTP/1.0"

/-- `_HEADER`, as it is sent. -/
def entries (r : Reply) : HeaderTable :=
  setHeader (bytes "PROTOCOL") (protocolValue r) (setHeader (bytes "CONNECTION") (connectionValue r) r.header)

/-- `flushheader`. There is no header where no status was set. -/
def flushheader (r : Reply) : Reply :=
  if r.headdone then r
  else if r.status = 0 then { r with headdone := true }
  else
    let contentLength := if r.bodydone && !r.flushed then r.bytecount else r.contentLength
    { r with
      contentLength := contentLength
      header := entries r
      headdone := true
      head := some ⟨protocolValue r, r.status, entries r,
        if r.bodydone then some (contentLength.bmod (2 ^ 32)) else none⟩ }

/-- `send_header`; `mod` is the time that it writes as `LAST_MODIFIED`. -/
def sendHeader (cacheable : Bool) (status : Int) (mime : List Byte) (length : Int) (mod : Option (List Byte))
    (r : Reply) : Reply :=
  let set := fun name value header => setHeader (bytes name) value header
  let asked := ((r.header.lookup (bytes "STATUS")).getD .other).toInt
  let status := if status ≠ 0 then status else if asked ≠ 0 then asked else 200
  let header := match mod with
    | some mod => set "LAST_MODIFIED" mod r.header
    | none => r.header
  let header := set "DATE" r.date header
  let header :=
    if cacheable then set "PRAGMA" (bytes "public") (set "CACHE_CONTROL" (bytes "public") header)
    else
      set "PRAGMA" (bytes "no-cache")
        (set "EXPIRES" r.date (set "CACHE_CONTROL" (bytes "no-cache, no-store, must-revalidate") header))
  { r with
    status := status.bmod (2 ^ 16)
    contentLength := if length ≥ 0 then length else r.contentLength
    header := set "CONTENT_TYPE" mime header }

/-! ### The body -/

/-- `tcp_send`: what it returns, which is positive where there is something to send. -/
def tcpSend (data : List Byte) (r : Reply) : Nat × Reply :=
  let count := match r.counts with
    | [] => data.length
    | c :: _ => min data.length (c + 1)
  (count, { r with body := r.body ++ data.take count, counts := r.counts.tail })

/-- The loop of `flushbuffer`. -/
def flushLoop : Nat → List Byte → Reply → Reply
  | 0, _, r => r
  | n + 1, pTemp, r =>
      if pTemp = [] then r
      else
        let (dcount, r) := tcpSend (pTemp.take 4096) r
        flushLoop n (pTemp.drop dcount) r

/-- `flushbuffer`. -/
def flushbuffer (r : Reply) : Reply :=
  let r := flushheader r
  if r.replybuf = [] then r
  else { flushLoop r.replybuf.length r.replybuf { r with flushed := true } with replybuf := [] }

/-- The buffer is flushed where it has no room for one more `smallbuf`. -/
def flushFull (r : Reply) : Reply := if r.replybuf.length + 4096 > maxReplysize - 2 then flushbuffer r else r

/-- `prints`, of a text that is formatted. -/
def prints (text : List Byte) (r : Reply) : Reply :=
  let buffer := snprintf 4095 text
  let r := flushFull { r with bytecount := r.bytecount + buffer.length }
  flushFull { r with replybuf := r.replybuf ++ buffer }

/-- `raw_prints`. -/
def rawPrints (text : List Byte) (r : Reply) : Reply :=
  let buffer := snprintf 2047 text
  (tcpSend buffer (flushbuffer { r with bytecount := r.bytecount + buffer.length })).2

/-- The loop of `htnsp_flush`. -/
def flushOut : Nat → List Byte → Reply → Reply
  | 0, _, r => r
  | n + 1, outbuffer, r =>
      let b := maxReplysize - r.replybuf.length - 1
      if b < 512 then
        if outbuffer = [] then flushbuffer r else flushOut n outbuffer (flushbuffer r)
      else
        let r := { r with
          replybuf := r.replybuf ++ outbuffer.take b
          bytecount := r.bytecount + (outbuffer.take b).length }
        if outbuffer.drop b = [] then r else flushOut n (outbuffer.drop b) r

/-- `htnsp_flush`, of what a script has written. -/
def htnspFlush (outbuffer : List Byte) (r : Reply) : Reply :=
  let r := flushOut (2 * outbuffer.length + 1) outbuffer r
  if r.replybuf = [] then r else flushbuffer r

/-- A file that can be sent. -/
structure File where
  content : List Byte
  mime : List Byte
  lastModified : List Byte
  /-- `bytesleft` is an `int` -/
  short : content.length < 2 ^ 31

/-- `MAX_FILESEND_WRITE_SIZE`. -/
def maxWriteSize : Nat := 65536

/-- The loop of `filesend`. What `tcp_send` does not take of a block is not sent. -/
def sendBlocks : Nat → Int → List Byte → Reply → Reply
  | 0, _, _, r => r
  | n + 1, bytesleft, content, r =>
      if bytesleft ≤ 0 then r
      else
        let bytesleft := if bytesleft < maxWriteSize then (maxWriteSize : Int) else bytesleft
        let fileblock := content.take maxWriteSize
        if fileblock = [] then r
        else sendBlocks n (bytesleft - fileblock.length) (content.drop maxWriteSize) (tcpSend fileblock r).2

/-- `conn->dat->replybuf[0] = '\0'`. -/
def zeroFirst (replybuf : List Byte) : List Byte :=
  match replybuf with
  | [] => []
  | _ :: replybuf => 0 :: replybuf

/-- `filesend` of a file that the client has: the header is sent, and the body is done. -/
def sendNotModified (file : File) (r : Reply) : Reply :=
  let r := { r with bodydone := true }
  let r := flushheader (sendHeader true 304 file.mime file.content.length (some file.lastModified) r)
  { r with replybuf := zeroFirst r.replybuf }

/-- `filesend` of a file that is open. -/
def sendContent (file : File) (r : Reply) : Reply :=
  let r := { r with bytecount := file.content.length, bodydone := true }
  let r := flushheader (sendHeader true 200 file.mime file.content.length (some file.lastModified) r)
  let r := sendBlocks (file.content.length + 1) file.content.length file.content r
  flushbuffer { r with headdone := true, flushed := true, replybuf := zeroFirst r.replybuf }

/-- `filesend`, of a file that there is. -/
def sendFile (file : File) (r : Reply) : Reply :=
  if sameText file.lastModified r.ifModifiedSince then sendNotModified file r else sendContent file r

/-- A call that a request makes. -/
inductive Op where
  | sendHeader (cacheable : Bool) (status : Int) (mime : List Byte) (length : Int) (mod : Option (List Byte))
  | prints (text : List Byte)
  | rawPrints (text : List Byte)
  | htnspFlush (outbuffer : List Byte)
  | flushbuffer
  /-- the file, if `filesend` finds one -/
  | filesend (file : Option File)

/-- A call. -/
def Op.run (r : Reply) : Op → Reply
  | .sendHeader cacheable status mime length mod => Httpd.sendHeader cacheable status mime length mod r
  | .prints text => Httpd.prints text r
  | .rawPrints text => Httpd.rawPrints text r
  | .htnspFlush outbuffer => Httpd.htnspFlush outbuffer r
  | .flushbuffer => Httpd.flushbuffer r
  | .filesend none => r
  | .filesend (some file) => sendFile file r

/-- The end of `http_dorequest`. -/
def finish (r : Reply) : Reply := flushbuffer { r with bodydone := true }

/-- What a header tells of the body is right. -/
def ResponseFramed (r : Reply) : Prop :=
  ∀ h, r.head = some h →
    match h.contentLength with
    | some n => (r.body.length : Int) = if h.status = 304 then 0 else n
    | none => (bytes "CONNECTION", HeaderValue.str (bytes "Close")) ∈ h.entries

/-! ### Where a header is right -/

/-- `tcp_send` takes each block of a file whole. -/
def takesAll : Nat → List Byte → List Nat → Bool
  | 0, _, _ => true
  | n + 1, content, counts =>
      let fileblock := content.take maxWriteSize
      fileblock.isEmpty ||
        (counts.head?.all fun c => fileblock.length ≤ c + 1) && takesAll n (content.drop maxWriteSize) counts.tail

/-- The header with the length of the body is sent. -/
def Reply.told (r : Reply) : Prop := ∃ h n, r.head = some h ∧ h.contentLength = some n

/-- A call that keeps the length right: nothing is written behind a body whose length was told, and a file is sent
where nothing is in the buffer, to a connection that takes it. -/
def Op.Fits (r : Reply) : Op → Prop
  | .prints text => r.told → text = []
  | .rawPrints text => r.told → text = []
  | .htnspFlush outbuffer => r.told → outbuffer = []
  | .filesend (some file) =>
      let notModified := sameText file.lastModified r.ifModifiedSince
      (r.told → notModified = true ∨ file.content = []) ∧
        (r.headdone = false → r.replybuf = [] ∧
          (notModified = false → takesAll (file.content.length + 1) file.content r.counts = true))
  | _ => True

/-- The calls of a request fit, and a response that is not modified has no body. -/
def Fits (r : Reply) : List Op → Prop
  | [] => r.headdone = false → r.status = 304 → r.replybuf = []
  | op :: ops => op.Fits r ∧ Fits (op.run r) ops

/-- The header was sent, and it does not tell the length. -/
structure Loose (r : Reply) : Prop where
  headdone : r.headdone = true
  close : ∀ h, r.head = some h →
    h.contentLength = none ∧ (bytes "CONNECTION", HeaderValue.str (bytes "Close")) ∈ h.entries

/-- The header was sent with the length of a body that was sent. -/
structure Exact (r : Reply) : Prop where
  headdone : r.headdone = true
  told : r.told
  length : ResponseFramed r
  replybuf : r.replybuf = []

section

variable {r r' : Reply}

/-! ### The header -/

theorem flushheader_body (r : Reply) :
    (flushheader r).body = r.body ∧ (flushheader r).replybuf = r.replybuf ∧ (flushheader r).headdone = true := by
  unfold flushheader
  split
  · rename_i h
    exact ⟨rfl, rfl, h⟩
  · split
    · exact ⟨rfl, rfl, rfl⟩
    · exact ⟨rfl, rfl, rfl⟩

theorem tcpSend_eq (data : List Byte) (r : Reply) :
    (tcpSend data r).2 = { r with body := r.body ++ data.take (tcpSend data r).1, counts := r.counts.tail } := rfl

theorem tcpSend_pos {data : List Byte} (hne : data ≠ []) (r : Reply) :
    0 < (tcpSend data r).1 ∧ (tcpSend data r).1 ≤ data.length := by
  have hpos := List.length_pos_of_ne_nil hne
  unfold tcpSend
  dsimp only
  split
  · exact ⟨hpos, Nat.le_refl _⟩
  · exact ⟨Nat.lt_min.mpr ⟨hpos, Nat.succ_pos _⟩, Nat.min_le_left _ _⟩

/-- The loop of `flushbuffer` sends all, however much each call takes. -/
theorem flushLoop_run {n : Nat} {pTemp : List Byte} (hn : pTemp.length ≤ n) (r : Reply) :
    ∃ counts, flushLoop n pTemp r = { r with body := r.body ++ pTemp, counts := counts } := by
  induction n generalizing pTemp r with
  | zero =>
      obtain rfl := List.length_eq_zero_iff.mp (Nat.le_zero.mp hn)
      exact ⟨r.counts, by rw [flushLoop, List.append_nil]⟩
  | succ n ih =>
      by_cases hne : pTemp = []
      · subst hne
        exact ⟨r.counts, by rw [flushLoop, if_pos rfl, List.append_nil]⟩
      · have htake : pTemp.take 4096 ≠ [] := fun h => by
          rcases List.take_eq_nil_iff.mp h with h | h
          · cases h
          · exact hne h
        obtain ⟨hpos, hle⟩ := tcpSend_pos htake r
        rw [List.length_take] at hle
        have hshort : (pTemp.drop (tcpSend (pTemp.take 4096) r).1).length ≤ n := by
          rw [List.length_drop]
          omega
        obtain ⟨counts, hrun⟩ := ih hshort (tcpSend (pTemp.take 4096) r).2
        refine ⟨counts, ?_⟩
        rw [flushLoop, if_neg hne]
        refine hrun.trans ?_
        rw [tcpSend_eq, List.take_take, Nat.min_eq_left (by omega), List.append_assoc, List.take_append_drop]

/-- What `flushbuffer` does behind the header. -/
theorem flushbuffer_run (r : Reply) : ∃ flushed counts, flushbuffer r =
    { flushheader r with body := r.body ++ r.replybuf, replybuf := [], flushed := flushed, counts := counts } := by
  obtain ⟨hbody, hbuf, -⟩ := flushheader_body r
  unfold flushbuffer
  dsimp only
  split
  · rename_i hnil
    refine ⟨(flushheader r).flushed, (flushheader r).counts, ?_⟩
    rw [← hbuf, hnil, List.append_nil, ← hbody, ← hnil]
  · obtain ⟨counts, hrun⟩ := flushLoop_run (Nat.le_refl (flushheader r).replybuf.length)
      { flushheader r with flushed := true }
    exact ⟨true, counts, by rw [hrun, ← hbuf, ← hbody]⟩

/-- The loop of `htnsp_flush` has rounds enough: what a script has written is sent, or is in the buffer. -/
theorem flushOut_all {n : Nat} {outbuffer : List Byte}
    (hn : 2 * outbuffer.length + (if maxReplysize - r.replybuf.length - 1 < 512 then 1 else 0) ≤ n) :
    (flushOut n outbuffer r).body ++ (flushOut n outbuffer r).replybuf = r.body ++ r.replybuf ++ outbuffer := by
  induction n generalizing outbuffer r with
  | zero =>
      obtain rfl : outbuffer = [] := List.length_eq_zero_iff.mp (by omega)
      exact (List.append_nil _).symm
  | succ n ih =>
      unfold flushOut
      dsimp only
      split
      · rename_i hfull
        rw [if_pos hfull] at hn
        obtain ⟨flushed, counts, hrun⟩ := flushbuffer_run r
        split
        · rename_i hnil
          rw [hrun, hnil]
        · have hroom : ¬ maxReplysize - (flushbuffer r).replybuf.length - 1 < 512 := by
            rw [hrun]
            show ¬ maxReplysize - 0 - 1 < 512
            decide
          rw [ih (by rw [if_neg hroom]; omega), hrun]
          dsimp only
          rw [List.append_nil]
      · rename_i hroom
        generalize hb : maxReplysize - r.replybuf.length - 1 = b at hroom hn ⊢
        split
        · rename_i hnil
          have hall : outbuffer.take b = outbuffer := List.take_of_length_le (List.drop_eq_nil_iff.mp hnil)
          dsimp only
          rw [hall, List.append_assoc]
        · rename_i hmore
          have hlen : b < outbuffer.length := Nat.lt_of_not_le fun hle => hmore (List.drop_of_length_le hle)
          rw [ih]
          · dsimp only
            rw [← List.append_assoc r.body, List.append_assoc _ (outbuffer.take b), List.take_append_drop]
          · rw [List.length_drop]
            split <;> omega

/-- The header is out, and it is the one that it was. -/
structure Later (r r' : Reply) : Prop where
  headdone : r'.headdone = true
  head : r'.head = r.head

theorem Later.trans {r'' : Reply} (h : Later r r') (h' : Later r' r'') : Later r r'' :=
  ⟨h'.headdone, h'.head.trans h.head⟩

theorem Loose.later (h : Loose r) (hlater : Later r r') : Loose r' :=
  ⟨hlater.headdone, fun head hhead => h.close head (hlater.head.symm.trans hhead)⟩

theorem Exact.later (h : Exact r) (hdone : r'.headdone = true) (hhead : r'.head = r.head) (hbody : r'.body = r.body)
    (hbuf : r'.replybuf = []) : Exact r' := by
  refine ⟨hdone, ?_, fun head htold => ?_, hbuf⟩
  · obtain ⟨head, n, hold, hn⟩ := h.told
    exact ⟨head, n, hhead.trans hold, hn⟩
  · rw [hbody]
    exact h.length head (hhead.symm.trans htold)

end

end NullG.Httpd
