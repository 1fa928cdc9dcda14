import ModCaucho.Stream.Read

/-!
# Operations on a stream

Whatever the plugin does with a stream is made of a few operations: `cse_write`,
`cse_flush`, `cse_fill_buffer`, `cse_close`, and passing over bytes of the read buffer.
`Performs` says that one state of a connection comes from another by such operations,
and which buffers were written by them.
-/

namespace ModCaucho

open Framing

/-- An operation on a stream. -/
inductive StreamOp
  | write (buf : List Byte)
  | flush
  | fill
  | skip (n : ℕ)
  | close
deriving DecidableEq, Repr

namespace StreamOp

def exec : StreamOp → Conn → Conn
  | write buf, c => cseWrite c buf
  | flush, c => (cseFlush c).2
  | fill, c => (cseFillBuffer c).2
  | skip n, c => c.advance n
  | close, c => cseClose c

/-- The buffer that the operation writes. -/
def written? : StreamOp → Option (List Byte)
  | write buf => some buf
  | _ => none

end StreamOp

/-- The operations one after the other. -/
def runOps (ops : List StreamOp) (c : Conn) : Conn := ops.foldl (fun c op => op.exec c) c

@[simp] theorem runOps_nil (c : Conn) : runOps [] c = c := rfl

@[simp] theorem runOps_cons (op : StreamOp) (ops : List StreamOp) (c : Conn) :
    runOps (op :: ops) c = runOps ops (op.exec c) := rfl

theorem runOps_append (ops ops' : List StreamOp) (c : Conn) :
    runOps (ops ++ ops') c = runOps ops' (runOps ops c) := List.foldl_append

/-- The second connection comes from the first by operations that write these buffers. -/
def Performs (bufs : List (List Byte)) (c c' : Conn) : Prop :=
  ∃ ops, runOps ops c = c' ∧ ops.filterMap StreamOp.written? = bufs

theorem Performs.refl (c : Conn) : Performs [] c c := ⟨[], rfl, rfl⟩

theorem Performs.trans {bufs bufs' : List (List Byte)} {c c' c'' : Conn}
    (h : Performs bufs c c') (h' : Performs bufs' c' c'') : Performs (bufs ++ bufs') c c'' := by
  obtain ⟨ops, rfl, rfl⟩ := h
  obtain ⟨ops', rfl, rfl⟩ := h'
  exact ⟨ops ++ ops', runOps_append ops ops' c, List.filterMap_append⟩

/-- A reader goes on where another one has stopped. -/
theorem Performs.reads {bufs : List (List Byte)} {c c' c'' : Conn} (h : Performs [] c c')
    (h' : Performs bufs c' c'') : Performs bufs c c'' := h.trans h'

theorem performs_one (op : StreamOp) (c : Conn) :
    Performs op.written?.toList c (op.exec c) := by
  refine ⟨[op], rfl, ?_⟩
  cases op <;> rfl

/-! ## Readers -/

theorem performs_fillIfEmpty (c : Conn) : Performs [] c (fillIfEmpty c).2 := by
  unfold fillIfEmpty
  split
  · exact performs_one .fill c
  · exact .refl c

theorem performs_cseReadByte (c : Conn) : Performs [] c (cseReadByte c).2 := by
  unfold cseReadByte
  simp only
  split
  · exact performs_fillIfEmpty c
  · exact (performs_fillIfEmpty c).reads (performs_one (.skip 1) _)

theorem performs_readLoop (fuel len : ℕ) (c : Conn) : Performs [] c (readLoop fuel len c).2.2 := by
  induction fuel generalizing len c with
  | zero => exact .refl c
  | succ fuel ih =>
      unfold readLoop
      split
      · exact .refl c
      · simp only
        split
        · exact performs_fillIfEmpty c
        · exact ((performs_fillIfEmpty c).reads (performs_one (.skip _) _)).reads (ih _ _)

theorem performs_cseReadAll (c : Conn) (len : ℕ) : Performs [] c (cseReadAll c len).2.2 :=
  performs_readLoop len len c

theorem performs_cseReadLimit (c : Conn) (buf : Mem) (buflen readlen : ℕ) :
    Performs [] c (cseReadLimit c buf buflen readlen).2.2 := by
  unfold cseReadLimit
  split
  · exact performs_cseReadAll c readlen
  · exact (performs_cseReadAll c buflen).reads (performs_readLoop _ _ _)

theorem performs_readHeader (c : Conn) : Performs [] c (readHeader c).2.2.2.2 :=
  (performs_cseReadByte c).reads <| (performs_cseReadByte _).reads <|
    (performs_cseReadByte _).reads (performs_cseReadByte _)

theorem performs_cseReadString (c : Conn) (buf : Mem) (length : ℕ) :
    Performs [] c (cseReadString c buf length).2.2 := by
  rw [cseReadString_eq]
  simp only
  split
  · exact performs_readHeader c
  · exact (performs_readHeader c).reads (performs_cseReadLimit _ _ _ _)

/-! ## Writers -/

/-- The two buffers of a packet. -/
def packetBufs (code : Byte) (buf : List Byte) : List (List Byte) := [header code buf.length, buf]

/-- A packet is two writes. -/
theorem runOps_packetBufs (c : Conn) (code : Byte) (buf : List Byte) :
    runOps ((packetBufs code buf).map .write) c = cseWritePacket c code buf := by
  simp only [cseWritePacket, packet_header]
  rfl

theorem performs_cseWritePacket (c : Conn) (code : Byte) (buf : List Byte) :
    Performs (packetBufs code buf) c (cseWritePacket c code buf) :=
  ⟨_, runOps_packetBufs c code buf, rfl⟩

end ModCaucho
