/-
The input buffer of a connection (`tcp.c`).

What a connection receives is given by the packets that `recv` hands over, and behind a handshake
by those of `SSL_read`. `want_close`, a socket that was closed and an error of the socket are the
end of the packets: from there on `tcp_recv` returns -1. Every byte in the buffer carries whether
it came from the TLS layer.
-/

import NullG.Lib.Pieces
import NullG.Nsp.Opcodes

namespace NullG.Net

open NullG.Nsp NullG.Lib

/-- A byte of the buffer, and whether `SSL_read` has put it there. -/
structure Octet where
  byte : Byte
  tls : Bool := false
  deriving DecidableEq

/-- The end of a line. -/
def Octet.isLf (c : Octet) : Bool := c.byte == ch '\n'

/-- `sizeof(recvbuf)`. -/
def recvbufLen : Nat := 4096

/-- A `recvbuf` that was cleared. -/
def clearBuf : List Octet := List.replicate recvbufLen ⟨0, false⟩

/-- `TCP_SOCKET`, as far as it is read here. -/
structure TcpSocket where
  recvs : List (List Byte)
  sslReads : List (List Byte) := []
  ssl : Bool := false
  usingTls : Bool := false
  recvbufsize : Nat := 0
  recvbufoffset : Nat := 0
  recvbuf : List Octet := clearBuf

/-- A packet is read, but at most `len` bytes of it; the rest is read next time. -/
def readPacket (len : Nat) (packet : List Byte) (rest : List (List Byte)) : List Byte × List (List Byte) :=
  (packet.take len, if packet.length ≤ len then rest else packet.drop len :: rest)

/-- `tcp_recv`: the bytes that were read, or -1. -/
def tcpRecv (socket : TcpSocket) (len : Nat) : Option (List Octet) × TcpSocket :=
  let len := min len 16384
  if socket.ssl then
    match socket.sslReads with
    | [] => (none, socket)
    -- `SSL_read` returns 0 when the TLS connection is closed
    | [] :: _ => (none, socket)
    | packet :: rest =>
        let (data, rest) := readPacket len packet rest
        (some (data.map (⟨·, true⟩)), { socket with sslReads := rest })
  else
    -- `recv` is called again when it returns 0
    match socket.recvs.dropWhile List.isEmpty with
    | [] => (none, { socket with recvs := [] })
    | packet :: rest =>
        let (data, rest) := readPacket len packet rest
        (some (data.map (⟨·, false⟩)), { socket with recvs := rest })

/-- The bytes are written to the buffer from `i` on. -/
def store (buf : List Octet) (i : Nat) (data : List Octet) : List Octet :=
  buf.take i ++ data ++ buf.drop (i + data.length)

/-- The first part of a round of `tcp_fgets`, where the buffer is empty. -/
def refill (socket : TcpSocket) : Bool × TcpSocket :=
  let x := recvbufLen - socket.recvbufoffset - socket.recvbufsize - 2
  let socket :=
    if x < 1 then { socket with recvbuf := clearBuf, recvbufoffset := 0, recvbufsize := 0 } else socket
  let x := recvbufLen - socket.recvbufoffset - socket.recvbufsize - 2
  match tcpRecv socket x with
  | (none, socket) => (false, socket)
  | (some data, socket) =>
      (true, { socket with
        recvbuf := store socket.recvbuf (socket.recvbufoffset + socket.recvbufsize) data
        recvbufsize := socket.recvbufsize + data.length })

/-- The inner loop of `tcp_fgets`: what it copies, and `lf`. `n` is what was copied before. -/
def copyLoop (max : Nat) : List Octet → Nat → Nat → List Octet × Bool
  | _, 0, _ => ([], false)
  | [], _ + 1, _ => ([], false)
  | c :: obuffer, recvbufsize + 1, n =>
      if n < max then
        if c.isLf || (obuffer.head?.map Octet.byte == some 0) then ([c], c.isLf)
        else
          let (pbuffer, lf) := copyLoop max obuffer recvbufsize (n + 1)
          (c :: pbuffer, lf)
      else ([], false)

/-- What is left is moved to the start of the buffer. -/
def compact (socket : TcpSocket) : TcpSocket :=
  if socket.recvbufsize > 0 then
    { socket with
      recvbuf := (socket.recvbuf.drop socket.recvbufoffset).take socket.recvbufsize ++
        clearBuf.drop socket.recvbufsize
      recvbufoffset := 0 }
  else { socket with recvbuf := clearBuf, recvbufoffset := 0, recvbufsize := 0 }

/-- The rounds of `tcp_fgets` from `retry` on; `buffer` was copied before. -/
def fgetsFrom (max : Nat) : Nat → List Octet → TcpSocket → Option (List Octet) × TcpSocket
  | 0, _, socket => (none, socket)
  | fuel + 1, buffer, socket =>
      match (if socket.recvbufsize = 0 then refill socket else (true, socket)) with
      | (false, socket) => (none, socket)
      | (true, socket) =>
          let (copied, lf) := copyLoop max (socket.recvbuf.drop socket.recvbufoffset) socket.recvbufsize
            buffer.length
          let buffer := buffer ++ copied
          let socket := { socket with
            recvbufoffset := socket.recvbufoffset + copied.length
            recvbufsize := socket.recvbufsize - copied.length }
          if max ≤ buffer.length then (some buffer, socket)
          else if !lf then fgetsFrom max fuel buffer (compact socket)
          else (some buffer, socket)

/-- The bytes in the buffer that were not returned yet. -/
def TcpSocket.buffered (socket : TcpSocket) : List Octet :=
  (socket.recvbuf.drop socket.recvbufoffset).take socket.recvbufsize

/-- The bytes that are still to be received. -/
def TcpSocket.incoming (socket : TcpSocket) : List Octet :=
  if socket.ssl then (socket.sslReads.takeWhile (!·.isEmpty)).flatten.map (⟨·, true⟩)
  else socket.recvs.flatten.map (⟨·, false⟩)

/-- All bytes that are still to be returned. -/
def TcpSocket.pending (socket : TcpSocket) : List Octet := socket.buffered ++ socket.incoming

/-- `tcp_fgets`, with a round for each byte that is left: the line, or -1. -/
def tcpFgets (max : Nat) (socket : TcpSocket) : Option (List Octet) × TcpSocket :=
  fgetsFrom max (socket.pending.length + 1) [] socket

/-- How a TLS handshake ends: without a connection object, with -1, or with a connection. -/
inductive Handshake where
  | noSsl
  | failed
  | done
  deriving DecidableEq

/-- `ssl_accept`. What `recv` would return is read by the handshake. -/
def sslAccept (outcome : Handshake) (socket : TcpSocket) : TcpSocket :=
  if socket.usingTls then socket
  else
    match outcome with
    | .noSsl => { socket with ssl := false }
    | .failed => { socket with ssl := true }
    | .done => { socket with ssl := true, usingTls := true }

end NullG.Net
