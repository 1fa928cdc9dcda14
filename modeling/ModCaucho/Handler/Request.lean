import ModCaucho.Lib.CString
import ModCaucho.Stream.Open

/-!
# Handling one request

The part of `mod_caucho.c` that talks to the servlet runner for one request: the
request is written as packets, the packets of the runner are copied to the
browser, and the connection is kept or closed. Strings of Apache are byte lists
without their final NUL. What the plugin does to the reply is recorded in order.
-/

namespace ModCaucho

open CString

/-! ## Local arrays -/

/-- The local arrays of `send_data` have `BUF_LENGTH + 1` bytes. -/
def localLength : ℕ := 8193

/-- The string that starts at an index of a local array and ends before the next
NUL. -/
def Mem.cstr (m : Mem) (start : ℕ) : List Byte :=
  ((List.range' start (localLength - start)).map m).takeWhile (· ≠ 0)

/-! ## The request and the reply -/

/-- The parts of `request_rec` and `conn_rec` that are sent to the runner, with
what the Apache functions of the same names return. `blocks` are the blocks that
`ap_get_client_block` delivers until it returns 0 or an error. -/
structure Request where
  protocol : List Byte
  method : List Byte
  unparsedUri : List Byte
  args : Option (List Byte)
  serverName : List Byte
  serverPort : ℕ
  remoteHost : Option (List Byte)
  remoteIp : List Byte
  remotePort : ℕ
  user : Option (List Byte)
  authType : Option (List Byte)
  headersIn : List (Option (List Byte) × List Byte)
  subprocessEnv : List (Option (List Byte) × List Byte)
  shouldClientBlock : Bool
  blocks : List Chunk

/-- What the plugin does to the reply. -/
inductive ReplyOp
  /-- `r->status` and `r->status_line` are set. -/
  | status (status : ℤ) (line : List Byte)
  | contentType (value : List Byte)
  | tableAdd (key value : List Byte)
  | tableSet (key value : List Byte)
  /-- `ap_rwrite` accepted these bytes. -/
  | write (bytes : List Byte)
  | flush
  | sendHeader
deriving DecidableEq, Repr

/-- What one call of `ap_rwrite` does: it accepts up to `n` bytes, or it fails. -/
inductive RwriteResult
  | accepts (n : ℕ)
  | failed
deriving DecidableEq, Repr

/-- The reply so far, and the results of the next calls of `ap_rwrite`. With an
exhausted script it accepts everything. -/
structure Reply where
  ops : List ReplyOp
  writes : List RwriteResult
deriving DecidableEq, Repr

/-- Records one more thing done to the reply. -/
def Reply.push (r : Reply) (op : ReplyOp) : Reply := { r with ops := r.ops ++ [op] }

/-- `ap_rwrite` -/
def Reply.rwrite (r : Reply) (bytes : List Byte) : ℤ × Reply :=
  match r.writes with
  | [] => (bytes.length, r.push (.write bytes))
  | .accepts n :: writes =>
      ((bytes.take n).length, { r.push (.write (bytes.take n)) with writes := writes })
  | .failed :: writes => (-1, { r with writes := writes })

/-! ## Writing the request -/

/-- `write_env`. `session` is the session number of the srun that the stream is
connected to. -/
def writeEnv (c : Conn) (session : ℕ) (r : Request) : Conn :=
  let c := cseWriteString c cseProtocol (some r.protocol)
  let c := cseWriteString c cseMethod (some r.method)
  let c := cseWriteString c cseUri (some (r.unparsedUri.takeWhile (· ≠ 63)))
  let c := cseWriteString c cseQueryString r.args
  let c := cseWriteString c cseServerName (some r.serverName)
  let c := cseWriteString c cseServerPort (some (decimal r.serverPort))
  let c := cseWriteString c cseRemoteHost (some (r.remoteHost.getD r.remoteIp))
  let c := cseWriteString c cseRemoteAddr (some r.remoteIp)
  let c := cseWriteString c cseRemotePort (some (decimal r.remotePort))
  let c := cseWriteString c cseRemoteUser r.user
  let c := cseWriteString c cseAuthType r.authType
  cseWriteString c cseSessionGroup (some (decimal session))

/-- One round of `write_headers`. -/
def writeHeader (c : Conn) (key val : List Byte) : Conn :=
  if strcaseEq key (ascii "Content-type".toList) then
    cseWriteString c cseContentType (some val)
  else if strcaseEq key (ascii "Content-length".toList) then
    cseWriteString c cseContentLength (some val)
  else cseWriteString (cseWriteString c cseHeader (some key)) cseValue (some val)

/-- `write_headers`. An entry without a key is passed over. -/
def writeHeaders (c : Conn) (hdrs : List (Option (List Byte) × List Byte)) : Conn :=
  hdrs.foldl (fun c hdr =>
    match hdr.1 with
    | some key => writeHeader c key hdr.2
    | none => c) c

/-- One round of `write_added_headers`. -/
def writeAddedHeader (user : Option (List Byte)) (c : Conn) (key val : List Byte) : Conn :=
  let c :=
    if key = ascii "HTTPS".toList ∧ val = ascii "on".toList then
      cseWriteString c cseIsSecure (some [])
    else if user = none ∧ key = ascii "SSL_CLIENT_DN".toList then
      cseWriteString c cseRemoteUser (some val)
    else c
  cseWriteString (cseWriteString c cseHeader (some key)) cseValue (some val)

/-- `write_added_headers` -/
def writeAddedHeaders (c : Conn) (user : Option (List Byte))
    (hdrs : List (Option (List Byte) × List Byte)) : Conn :=
  hdrs.foldl (fun c hdr =>
    match hdr.1 with
    | some key => writeAddedHeader user c key hdr.2
    | none => c) c

/-! ## Copying the response -/

/-- The loop of `cse_write_response`, which goes round once for each buffer. Its
inner loop writes once, since it takes all of `sublen` off what is left. -/
def writeResponseLoop : ℕ → ℕ → Conn → Reply → ℤ × Conn × Reply
  | 0, _, c, r => (1, c, r)
  | fuel + 1, len, c, r =>
      if len = 0 then (1, c, r)
      else
        let (filled, c) := fillIfEmpty c
        if filled < 0 then (-1, c, r)
        else
          let sublen := min len c.stream.buffered
          let (sentlen, r) := r.rwrite (c.stream.unread.take sublen)
          if sentlen < 0 then (-1, cseClose c, r)
          else writeResponseLoop fuel (len - sublen) (c.advance sublen) r

/-- `cse_write_response` -/
def cseWriteResponse (c : Conn) (len : ℕ) (r : Reply) : ℤ × Conn × Reply :=
  writeResponseLoop len len c r

/-- The three local arrays of `send_data`. -/
structure Locals where
  buf : Mem
  key : Mem
  value : Mem

/-- The state of an exchange with the runner. `heard` is kept for the record: the
code of every packet that `send_data` has gone to read, or `-1` where no packet
came. -/
structure Relay where
  conn : Conn
  reply : Reply
  keepalive : Bool
  heard : List ℤ

/-- The `switch` of `send_data`, on a packet with its header read. A result of `-1`
makes `send_data` return. -/
def handlePacket (code : ℤ) (len : ℕ) (m : Locals) (x : Relay) : ℤ × Locals × Relay :=
  if code = cseStatus.toNat then
    let (_, bytes, c) := cseReadAll x.conn len
    let buf := (m.buf.store 0 bytes).store len [0]
    -- the status starts behind the first blank
    let i := ((buf.cstr 0).takeWhile (· ≠ 32)).length + 1
    (code, { m with buf := buf },
      { x with conn := c, reply := x.reply.push (.status (atoi (buf.cstr i)) (buf.cstr i)) })
  else if code = cseHeader.toNat then
    let (_, bytes, c) := cseReadAll x.conn len
    let key := (m.key.store 0 bytes).store len [0]
    let (_, value, c) := cseReadString c m.value localLength
    let op :=
      if strcaseEq (key.cstr 0) (ascii "content-type".toList) then
        ReplyOp.contentType (value.cstr 0)
      else if strcaseEq (key.cstr 0) (ascii "set-cookie".toList) then
        .tableAdd (key.cstr 0) (value.cstr 0)
      else .tableSet (key.cstr 0) (value.cstr 0)
    (code, { m with key := key, value := value },
      { x with conn := c, reply := x.reply.push op })
  else if code = cseData.toNat then
    let (result, c, reply) := cseWriteResponse x.conn len x.reply
    (if result < 0 then -1 else code, m, { x with conn := c, reply := reply })
  else if code = cseFlushCode.toNat then (code, m, { x with reply := x.reply.push .flush })
  else if code = cseKeepalive.toNat then (code, m, { x with keepalive := true })
  else if code = cseSendHeader.toNat then
    (code, m, { x with reply := x.reply.push .sendHeader })
  else if code = -1 then (code, m, x)
  else
    let (_, bytes, c) := cseReadAll x.conn len
    (code, { m with buf := m.buf.store 0 bytes }, { x with conn := c })

/-- One round of `send_data`: a packet is read and handled. -/
def sendPacket (m : Locals) (x : Relay) : ℤ × Locals × Relay :=
  let (code, c) := cseReadByte x.conn
  let (l1, c) := cseReadByte c
  let (l2, c) := cseReadByte c
  let (l3, c) := cseReadByte c
  let len := low8 l1 * 65536 + low8 l2 * 256 + low8 l3
  if c.stream.socket < 0 then (-1, m, { x with conn := c, heard := x.heard ++ [-1] })
  else handlePacket code len m { x with conn := c, heard := x.heard ++ [code] }

/-- The loop of `send_data`. -/
def sendDataLoop (ack : Byte) : ℕ → Locals → Relay → ℤ × Relay
  | 0, _, x => (-1, x)
  | fuel + 1, m, x =>
      let (code, m, x) := sendPacket m x
      if 0 < code ∧ code ≠ cseEnd.toNat ∧ code ≠ cseCloseCode.toNat ∧ code ≠ ack.toNat then
        sendDataLoop ack fuel m x
      else (code, x)

/-- `send_data`. The local arrays start out as `m`. Every round but the last reads a
byte, so the bytes that can still be read bound the rounds. -/
def sendData (ack : Byte) (m : Locals) (x : Relay) : ℤ × Relay :=
  sendDataLoop ack (x.conn.remaining + 1) m x

/-! ## The whole request -/

/-- `cse_write_packet` in an exchange. -/
def Relay.writePacket (x : Relay) (code : Byte) (buf : List Byte) : Relay :=
  { x with conn := cseWritePacket x.conn code buf }

/-- The loop over the blocks of the request body. Every block but the first waits
for the runner's ACK. `junk` is what the local arrays of each `send_data` start
out as. -/
def sendBody : (ℕ → Locals) → Bool → List Chunk → Relay → Relay
  | _, _, [], x => x
  | junk, isFirst, block :: blocks, x =>
      if isFirst then sendBody junk false blocks (x.writePacket cseData block.bytes)
      else
        let (code, x) := sendData cseAck (junk 0) x
        if code < 0 ∨ code = cseEnd.toNat ∨ code = cseCloseCode.toNat then x
        else
          sendBody (fun k => junk (k + 1)) false blocks (x.writePacket cseData block.bytes)

/-- The first three calls of `write_request`. -/
def Relay.writeHead (x : Relay) (session : ℕ) (r : Request) : Relay :=
  let c := writeEnv x.conn session r
  let c := writeHeaders c r.headersIn
  let c := writeAddedHeaders c r.user r.subprocessEnv
  { x with conn := c }

/-- `write_request` up to where it writes its END packet. -/
def writeBody (junk : ℕ → Locals) (session : ℕ) (r : Request) (x : Relay) : Relay :=
  let x := x.writeHead session r
  if r.shouldClientBlock then sendBody (fun k => junk (k + 1)) true r.blocks x else x

/-- `write_request` -/
def writeRequest (junk : ℕ → Locals) (session : ℕ) (r : Request) (x : Relay) : Bool × Relay :=
  let x := writeBody junk session r x
  let (code, x) := sendData cseEnd (junk 0) (x.writePacket cseEnd [])
  (decide (code = cseEnd.toNat), x)

/-- `cse_recycle` -/
def cseRecycle (p : Child) : Child :=
  let stored := p.stream.srun.filter fun i =>
    0 ≤ p.stream.socket ∧ p.config.updateCount = p.stream.updateCount ∧
      (p.config.srun i).sockets.length < (p.config.srun i).maxSockets
  match stored with
  | some i =>
      { p with
        stream := { p.stream with socket := -1 }
        config := p.config.modifySrun i fun srun =>
          { srun with sockets := p.stream.socket.toNat :: srun.sockets } }
  | none =>
      let c := cseClose (cseWritePacket p.conn cseCloseCode [])
      { p with stream := c.stream, os := c.os }

end ModCaucho
