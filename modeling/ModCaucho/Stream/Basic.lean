import ModCaucho.Cse

/-!
# Buffered reading and writing on a stream

The operations of `stream.c` on one `stream_t`: `cse_close`, `cse_flush`,
`cse_fill_buffer`, the four readers and the three writers. Every operation
takes the connection and gives it back, next to the value that the C function
returns.

A reader's loop goes once round for each buffer that it drains. It asks for at
least one byte in every round, so the number of bytes asked for bounds the
rounds.
-/

namespace ModCaucho

/-- The contents of a local array of C, which may start out as anything. -/
abbrev Mem := ℕ → Byte

/-- Copies bytes into an array from an index on. -/
def Mem.store (m : Mem) (start : ℕ) (bytes : List Byte) : Mem := fun i =>
  if start ≤ i ∧ i < start + bytes.length then bytes.getD (i - start) 0 else m i

/-! ## The socket -/

/-- `send` on the socket of a stream. -/
def Conn.send (c : Conn) (bytes : List Byte) : ℤ × Conn :=
  let (len, os) := c.os.send c.stream.socket bytes
  (len, { c with os := os })

/-- `recv` into the read buffer, which starts to be read from its beginning. -/
def Conn.recv (c : Conn) : Conn :=
  let os := { c.os with waits := c.os.waits ++ [c.stream.writeBuf] }
  match c.os.recvs with
  | .data chunk :: recvs =>
      { stream := { c.stream with
          readBuf := chunk.bytes, readOffset := 0, readLength := chunk.bytes.length }
        os := { os with recvs := recvs } }
  | .failed :: recvs =>
      { stream := { c.stream with readOffset := 0, readLength := -1 }
        os := { os with recvs := recvs } }
  | .closed :: recvs =>
      { stream := { c.stream with readOffset := 0, readLength := 0 }
        os := { os with recvs := recvs } }
  | [] => { stream := { c.stream with readOffset := 0, readLength := 0 }, os := os }

/-- `cse_close` -/
def cseClose (c : Conn) : Conn where
  stream := { c.stream with socket := -1 }
  os := c.os.close c.stream.socket

/-- `cse_flush`. A short `send` is an error that leaves the buffer as it is. -/
def cseFlush (c : Conn) : ℤ × Conn :=
  if c.stream.writeLength > 0 then
    let (len, c) := c.send c.stream.writeBuf
    if len ≠ c.stream.writeLength then (-1, c)
    else (0, { c with stream := { c.stream with writeBuf := [] } })
  else (0, c)

/-- `cse_fill_buffer`. Everything written so far is sent before the stream waits
for the other side. -/
def cseFillBuffer (c : Conn) : ℤ × Conn :=
  if c.stream.socket < 0 then (-1, c)
  else
    let (flushed, c) := cseFlush c
    if flushed < 0 then (-1, c)
    else
      let c := c.recv
      if c.stream.readLength ≤ 0 then (-1, cseClose c)
      else (c.stream.readLength, c)

/-! ## Readers -/

/-- The test that opens every reader: a buffer that is used up is filled. -/
def fillIfEmpty (c : Conn) : ℤ × Conn :=
  if c.stream.readLength ≤ c.stream.readOffset then cseFillBuffer c else (0, c)

/-- `cse_read_byte` -/
def cseReadByte (c : Conn) : ℤ × Conn :=
  let (filled, c) := fillIfEmpty c
  if filled < 0 then (-1, c)
  else
    (((c.stream.readBuf.getD c.stream.readOffset 0).toNat : ℤ),
      { c with stream := { c.stream with readOffset := c.stream.readOffset + 1 } })

/-- The number of unread bytes in the read buffer. -/
def Stream.buffered (s : Stream) : ℕ := (s.readLength - s.readOffset).toNat

/-- The unread bytes of the read buffer. -/
def Stream.unread (s : Stream) : List Byte := (s.readBuf.drop s.readOffset).take s.buffered

/-- Passes over the first `n` unread bytes. -/
def Conn.advance (c : Conn) (n : ℕ) : Conn :=
  { c with stream := { c.stream with readOffset := c.stream.readOffset + n } }

/-- The number of bytes that one `recv` delivers. -/
def RecvResult.size : RecvResult → ℕ
  | .data chunk => chunk.bytes.length
  | _ => 0

/-- The number of bytes that can still be read. -/
def Conn.remaining (c : Conn) : ℕ :=
  c.stream.buffered + (c.os.recvs.map RecvResult.size).sum

/-- The loop of `cse_read_all` and `cse_skip`: go over `len` bytes, filling the
buffer whenever it is used up. The result says whether all of them came, and
which bytes were met. -/
def readLoop : ℕ → ℕ → Conn → Bool × List Byte × Conn
  | 0, _, c => (true, [], c)
  | fuel + 1, len, c =>
      if len = 0 then (true, [], c)
      else
        let (filled, c) := fillIfEmpty c
        if filled < 0 then (false, [], c)
        else
          let sublen := min len c.stream.buffered
          let met := c.stream.unread.take sublen
          let (all, rest, c) := readLoop fuel (len - sublen) (c.advance sublen)
          (all, met ++ rest, c)

/-- `cse_read_all`, with the bytes that it copied to the front of its array. -/
def cseReadAll (c : Conn) (len : ℕ) : ℤ × List Byte × Conn :=
  let (all, bytes, c) := readLoop len len c
  (if all then len else -1, bytes, c)

/-- `cse_skip` -/
def cseSkip (c : Conn) (len : ℕ) : ℤ × Conn :=
  let (all, _, c) := readLoop len len c
  (if all then 1 else -1, c)

/-- `cse_read_limit`. At most `buflen` bytes of the `readlen` reach the array,
and its content ends in a NUL either way. -/
def cseReadLimit (c : Conn) (buf : Mem) (buflen readlen : ℕ) : ℤ × Mem × Conn :=
  if buflen > readlen then
    let (result, bytes, c) := cseReadAll c readlen
    (result, (buf.store 0 bytes).store readlen [0], c)
  else
    let (result, bytes, c) := cseReadAll c buflen
    let (_, c) := cseSkip c (readlen - buflen)
    (result, (buf.store 0 bytes).store (buflen - 1) [0], c)

/-- `x & 0xff` for the result of `cse_read_byte`. -/
def low8 (x : ℤ) : ℕ := (x % 256).toNat

/-- `cse_read_string` into an array of `length` bytes. -/
def cseReadString (c : Conn) (buf : Mem) (length : ℕ) : ℤ × Mem × Conn :=
  let (_, c) := cseReadByte c
  let (l1, c) := cseReadByte c
  let (l2, c) := cseReadByte c
  let (l3, c) := cseReadByte c
  let readLength := low8 l1 * 65536 + low8 l2 * 256 + low8 l3
  if c.stream.socket < 0 ∨ l3 < 0 then (-1, buf, c)
  else cseReadLimit c buf (length - 1) readLength

/-! ## Writers -/

/-- The block of `cse_write` that makes room: what is in `write_buf` is sent, and
the buffer is empty however much of it `send` took. -/
def makeRoom (c : Conn) : ℤ × Conn :=
  if c.stream.writeLength > 0 then
    let (len, c) := c.send c.stream.writeBuf
    (len, { c with stream := { c.stream with writeBuf := [] } })
  else (0, c)

/-- Copies bytes behind the ones in `write_buf`. -/
def Conn.append (c : Conn) (buf : List Byte) : Conn :=
  { c with stream := { c.stream with writeBuf := c.stream.writeBuf ++ buf } }

/-- `cse_write`. A write that does not fit sends the buffer first. One that is
longer than the whole buffer then sends what is left in `write_buf`, and not the
bytes it was given. -/
def cseWrite (c : Conn) (buf : List Byte) : Conn :=
  if c.stream.writeLength + buf.length > bufLength then
    let (len, c) := makeRoom c
    if len < 0 then cseClose c
    else if buf.length > bufLength then
      let (len, c) := c.send c.stream.writeBuf
      if len < 0 then cseClose c else c
    else c.append buf
  else c.append buf

/-- `cse_write_packet` -/
def cseWritePacket (c : Conn) (code : Byte) (buf : List Byte) : Conn :=
  let length := buf.length
  let temp := [code, UInt8.ofNat ((length >>> 16) &&& 0xff),
    UInt8.ofNat ((length >>> 8) &&& 0xff), UInt8.ofNat (length &&& 0xff)]
  cseWrite (cseWrite c temp) buf

/-- `cse_write_string`. A NULL string is not written. -/
def cseWriteString (c : Conn) (code : Byte) (buf : Option (List Byte)) : Conn :=
  match buf with
  | some buf => cseWritePacket c code buf
  | none => c

end ModCaucho
