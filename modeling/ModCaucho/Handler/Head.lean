import Mathlib.Data.List.Basic
import ModCaucho.Handler.Exchange

/-!
# What the runner makes of a request

The head of a request is a list of packets, and the bytes of `write_request` are their
encoding, with the body behind them. `Account.take` is a reader on the other side: it
pairs each HEADER with the VALUE behind it, and fails on anything that is out of place.
From what the plugin writes it gets the request back. What a browser puts into its headers
ends up in headers and in the two content fields, and in no other field.
-/

namespace ModCaucho

open Framing CString

/-! ## The packets of the head -/

/-- The packet of `cse_write_string`, if there is a string. -/
def stringFrames (code : Byte) (buf : Option (List Byte)) : List Frame :=
  (buf.map (Frame.mk code)).toList

theorem writePackets_append (c : Conn) (fs gs : List Frame) :
    writePackets c (fs ++ gs) = writePackets (writePackets c fs) gs := List.foldl_append

theorem cseWriteString_frames (c : Conn) (code : Byte) (buf : Option (List Byte)) :
    cseWriteString c code buf = writePackets c (stringFrames code buf) := by
  cases buf <;> rfl

/-- The strings of `write_env`, in order. -/
def Request.env (session : ℕ) (r : Request) : List (Byte × Option (List Byte)) :=
  [(cseProtocol, some r.protocol), (cseMethod, some r.method),
    (cseUri, some (r.unparsedUri.takeWhile (· ≠ 63))), (cseQueryString, r.args),
    (cseServerName, some r.serverName), (cseServerPort, some (decimal r.serverPort)),
    (cseRemoteHost, some (r.remoteHost.getD r.remoteIp)), (cseRemoteAddr, some r.remoteIp),
    (cseRemotePort, some (decimal r.remotePort)), (cseRemoteUser, r.user),
    (cseAuthType, r.authType), (cseSessionGroup, some (decimal session))]

/-- The packets of a header that the browser sent. -/
def headerFrames : Option (List Byte) × List Byte → List Frame
  | (none, _) => []
  | (some key, val) =>
      if strcaseEq key (ascii "Content-type".toList) then [⟨cseContentType, val⟩]
      else if strcaseEq key (ascii "Content-length".toList) then [⟨cseContentLength, val⟩]
      else [⟨cseHeader, key⟩, ⟨cseValue, val⟩]

/-- What the environment of the subrequest adds to the fields. -/
def addedField (user : Option (List Byte)) (key val : List Byte) : Option (Byte × List Byte) :=
  if key = ascii "HTTPS".toList ∧ val = ascii "on".toList then some (cseIsSecure, [])
  else if user = none ∧ key = ascii "SSL_CLIENT_DN".toList then some (cseRemoteUser, val)
  else none

/-- The packets of a variable of the environment. -/
def addedFrames (user : Option (List Byte)) : Option (List Byte) × List Byte → List Frame
  | (none, _) => []
  | (some key, val) =>
      ((addedField user key val).map fun f => Frame.mk f.1 f.2).toList ++
        [⟨cseHeader, key⟩, ⟨cseValue, val⟩]

/-- The packets in the head of a request. -/
def headFrames (session : ℕ) (r : Request) : List Frame :=
  ((r.env session).flatMap fun s => stringFrames s.1 s.2) ++
    (r.headersIn.flatMap headerFrames ++ r.subprocessEnv.flatMap (addedFrames r.user))

theorem writeEnv_frames (c : Conn) (session : ℕ) (r : Request) :
    writeEnv c session r =
      writePackets c ((r.env session).flatMap fun s => stringFrames s.1 s.2) := by
  simp only [writeEnv, cseWriteString_frames, ← writePackets_append, Request.env,
    List.flatMap_cons, List.flatMap_nil, List.append_nil, List.append_assoc]

/-- A loop that writes some packets in each round writes all of them. -/
theorem foldl_frames {α : Type} {f : Conn → α → Conn} {frames : α → List Frame}
    (h : ∀ c a, f c a = writePackets c (frames a)) (as : List α) (c : Conn) :
    as.foldl f c = writePackets c (as.flatMap frames) := by
  induction as generalizing c with
  | nil => rfl
  | cons a as ih => rw [List.foldl_cons, h, ih, List.flatMap_cons, writePackets_append]

theorem writeHeaders_frames (c : Conn) (hdrs : List (Option (List Byte) × List Byte)) :
    writeHeaders c hdrs = writePackets c (hdrs.flatMap headerFrames) := by
  refine foldl_frames (fun c hdr => ?_) hdrs c
  obtain ⟨key, val⟩ := hdr
  cases key with
  | none => rfl
  | some key =>
      simp only [writeHeader, headerFrames]
      split
      · exact cseWriteString_frames c cseContentType (some val)
      · split
        · exact cseWriteString_frames c cseContentLength (some val)
        · simp only [cseWriteString_frames, ← writePackets_append]
          rfl

theorem writeAddedHeaders_frames (c : Conn) (user : Option (List Byte))
    (hdrs : List (Option (List Byte) × List Byte)) :
    writeAddedHeaders c user hdrs = writePackets c (hdrs.flatMap (addedFrames user)) := by
  refine foldl_frames (fun c hdr => ?_) hdrs c
  obtain ⟨key, val⟩ := hdr
  cases key with
  | none => rfl
  | some key =>
      simp only [writeAddedHeader, addedFrames, addedField, cseWriteString_frames]
      split
      · simp only [← writePackets_append]
        rfl
      · split
        · simp only [← writePackets_append]
          rfl
        · simp only [← writePackets_append]
          rfl

theorem writeHead_frames (x : Relay) (session : ℕ) (r : Request) :
    (x.writeHead session r).conn = writePackets x.conn (headFrames session r) := by
  rw [headFrames, writePackets_append, writePackets_append, ← writeEnv_frames,
    ← writeHeaders_frames, ← writeAddedHeaders_frames]
  rfl

/-! ## The other side -/

/-- What a runner has made of the packets of a request so far. `name` is the header whose
value is to come next. -/
structure Account where
  fields : List (Byte × List Byte)
  headers : List (List Byte × List Byte)
  body : List (List Byte)
  name : Option (List Byte)
  complete : Bool
deriving DecidableEq, Repr

/-- No packet has come yet. -/
def Account.empty : Account := ⟨[], [], [], none, false⟩

/-- The runner reads one more packet. A HEADER goes with the VALUE behind it, and nothing
may come behind the END. -/
def Account.take (a : Account) (f : Frame) : Option Account :=
  if a.complete then none
  else
    match a.name with
    | some key =>
        if f.code = cseValue then
          some { a with headers := a.headers ++ [(key, f.payload)], name := none }
        else none
    | none =>
        if f.code = cseHeader then some { a with name := some f.payload }
        else if f.code = cseValue then none
        else if f.code = cseData then some { a with body := a.body ++ [f.payload] }
        else if f.code = cseEnd then some { a with complete := true }
        else some { a with fields := a.fields ++ [(f.code, f.payload)] }

/-- The runner reads all packets. -/
def Account.readAll (fs : List Frame) : Option Account := fs.foldlM Account.take .empty

/-- Between two packets that do not belong together, with more to come. -/
structure Account.Between (a : Account) : Prop where
  name : a.name = none
  complete : a.complete = false

/-- The account with these fields and headers behind the ones that it has. -/
def Account.add (a : Account) (fields : List (Byte × List Byte))
    (headers : List (List Byte × List Byte)) : Account :=
  { a with fields := a.fields ++ fields, headers := a.headers ++ headers }

theorem Account.Between.add {a : Account} (h : a.Between) (fields : List (Byte × List Byte))
    (headers : List (List Byte × List Byte)) : (a.add fields headers).Between :=
  ⟨h.name, h.complete⟩

theorem Account.add_nil (a : Account) : a.add [] [] = a := by
  rw [Account.add, List.append_nil, List.append_nil]

theorem Account.add_add (a : Account) (fields fields' : List (Byte × List Byte))
    (headers headers' : List (List Byte × List Byte)) :
    (a.add fields headers).add fields' headers' =
      a.add (fields ++ fields') (headers ++ headers') := by
  simp only [Account.add, List.append_assoc]

/-- The codes that are not fields. -/
def partCodes : List Byte := [cseHeader, cseValue, cseData, cseEnd]

theorem take_field {a : Account} (h : a.Between) {f : Frame} (hcode : f.code ∉ partCodes) :
    a.take f = some (a.add [(f.code, f.payload)] []) := by
  simp only [partCodes, List.mem_cons, List.not_mem_nil, or_false, not_or] at hcode
  obtain ⟨hheader, hvalue, hdata, hend⟩ := hcode
  simp only [Account.take, h.name, h.complete, Bool.false_eq_true, if_false, if_neg hheader,
    if_neg hvalue, if_neg hdata, if_neg hend, Account.add, List.append_nil]

theorem take_pair {a : Account} (h : a.Between) (key val : List Byte) :
    [⟨cseHeader, key⟩, ⟨cseValue, val⟩].foldlM Account.take a = some (a.add [] [(key, val)]) := by
  have hne : ¬ cseValue = cseHeader := by decide
  simp only [List.foldlM_cons, List.foldlM_nil, Account.take, h.name, h.complete,
    Bool.false_eq_true, if_false, if_true, Option.bind_eq_bind, Option.bind_some, Account.add,
    List.append_nil]
  obtain ⟨fields, headers, body, name, complete⟩ := a
  obtain rfl : name = none := h.name
  rfl

theorem take_data {a : Account} (h : a.Between) (bytes : List Byte) :
    a.take ⟨cseData, bytes⟩ = some { a with body := a.body ++ [bytes] } := by
  simp only [Account.take, h.name, h.complete, Bool.false_eq_true, if_false]
  rfl

theorem take_end {a : Account} (h : a.Between) :
    a.take ⟨cseEnd, []⟩ = some { a with complete := true } := by
  simp only [Account.take, h.name, h.complete, Bool.false_eq_true, if_false]
  rfl

/-- If each item adds to the account, all of them do. -/
theorem read_flatMap {α : Type} {frames : α → List Frame} {fields : α → Option (Byte × List Byte)}
    {headers : α → Option (List Byte × List Byte)}
    {xs : List α} (h : ∀ x ∈ xs, ∀ a : Account, a.Between →
      (frames x).foldlM Account.take a = some (a.add (fields x).toList (headers x).toList))
    {a : Account} (ha : a.Between) :
    (xs.flatMap frames).foldlM Account.take a =
      some (a.add (xs.filterMap fields) (xs.filterMap headers)) := by
  induction xs generalizing a with
  | nil => rw [List.flatMap_nil, List.filterMap_nil, List.filterMap_nil, Account.add_nil]; rfl
  | cons x xs ih =>
      rw [List.flatMap_cons, List.foldlM_append, h x List.mem_cons_self a ha,
        Option.bind_eq_bind, Option.bind_some,
        ih (fun y hy => h y (List.mem_cons_of_mem x hy)) (ha.add _ _), Account.add_add]
      cases hfields : fields x <;> cases hheaders : headers x <;> simp [hfields, hheaders]

/-! ## What the head says -/

/-- The field that a header of the browser becomes, if it is one of the two that have
packets of their own. -/
def headerField : Option (List Byte) × List Byte → Option (Byte × List Byte)
  | (none, _) => none
  | (some key, val) =>
      if strcaseEq key (ascii "Content-type".toList) then some (cseContentType, val)
      else if strcaseEq key (ascii "Content-length".toList) then some (cseContentLength, val)
      else none

/-- The header that a header of the browser stays. -/
def headerPair : Option (List Byte) × List Byte → Option (List Byte × List Byte)
  | (none, _) => none
  | (some key, val) =>
      if strcaseEq key (ascii "Content-type".toList) then none
      else if strcaseEq key (ascii "Content-length".toList) then none
      else some (key, val)

/-- The fields of a request on their way to a runner with this session. -/
def Request.fields (session : ℕ) (r : Request) : List (Byte × List Byte) :=
  ((r.env session).filterMap fun s => s.2.map (Prod.mk s.1)) ++
    (r.headersIn.filterMap headerField ++
      r.subprocessEnv.filterMap fun hdr => hdr.1.bind fun key => addedField r.user key hdr.2)

/-- The headers of a request on their way to a runner. -/
def Request.pairs (r : Request) : List (List Byte × List Byte) :=
  r.headersIn.filterMap headerPair ++
    r.subprocessEnv.filterMap fun hdr => hdr.1.map fun key => (key, hdr.2)

/-- The account of a request of which this much of the body has come. -/
def Request.account (session : ℕ) (r : Request) (body : List (List Byte)) (complete : Bool) :
    Account :=
  ⟨r.fields session, r.pairs, body, none, complete⟩

theorem read_stringFrames {code : Byte} (hcode : code ∉ partCodes) (buf : Option (List Byte))
    {a : Account} (ha : a.Between) :
    (stringFrames code buf).foldlM Account.take a =
      some (a.add (buf.map (Prod.mk code)).toList []) := by
  cases buf with
  | none => rw [Option.map_none, Option.toList_none, Account.add_nil]; rfl
  | some buf =>
      rw [stringFrames, Option.map_some, Option.toList_some, List.foldlM_cons,
        take_field ha hcode]
      rfl

theorem read_headerFrames (hdr : Option (List Byte) × List Byte) {a : Account}
    (ha : a.Between) :
    (headerFrames hdr).foldlM Account.take a =
      some (a.add (headerField hdr).toList (headerPair hdr).toList) := by
  obtain ⟨key, val⟩ := hdr
  cases key with
  | none => exact (congrArg some a.add_nil).symm
  | some key =>
      simp only [headerFrames, headerField, headerPair]
      split
      · exact read_stringFrames (by decide) (some val) ha
      · split
        · exact read_stringFrames (by decide) (some val) ha
        · exact take_pair ha key val

theorem addedField_code {user : Option (List Byte)} {key val : List Byte}
    {f : Byte × List Byte} (h : addedField user key val = some f) :
    f.1 = cseIsSecure ∨ f.1 = cseRemoteUser ∧ user = none := by
  unfold addedField at h
  split at h
  · cases h
    exact Or.inl rfl
  · split at h
    · next hdn =>
        cases h
        exact Or.inr ⟨rfl, hdn.1⟩
    · cases h

theorem read_addedFrames (user : Option (List Byte)) (hdr : Option (List Byte) × List Byte)
    {a : Account} (ha : a.Between) :
    (addedFrames user hdr).foldlM Account.take a =
      some (a.add (hdr.1.bind fun key => addedField user key hdr.2).toList
        (hdr.1.map fun key => (key, hdr.2)).toList) := by
  obtain ⟨key, val⟩ := hdr
  cases key with
  | none => exact (congrArg some a.add_nil).symm
  | some key =>
      rw [addedFrames, List.foldlM_append, Option.bind_some, Option.map_some]
      cases hfield : addedField user key val with
      | none => exact take_pair ha key val
      | some f =>
          have hcode : f.1 ∉ partCodes := by
            rcases addedField_code hfield with heq | ⟨heq, -⟩ <;> rw [heq] <;> decide
          have hread := read_stringFrames hcode (some f.2) ha
          rw [stringFrames, Option.map_some, Option.map_some] at hread
          rw [Option.map_some, hread, Option.bind_eq_bind, Option.bind_some,
            take_pair (ha.add _ _), Account.add_add]
          rfl

/-- The codes of the packets of `write_env`. -/
def envCodes : List Byte :=
  [cseProtocol, cseMethod, cseUri, cseQueryString, cseServerName, cseServerPort, cseRemoteHost,
    cseRemoteAddr, cseRemotePort, cseRemoteUser, cseAuthType, cseSessionGroup]

theorem env_code {session : ℕ} {r : Request} {s : Byte × Option (List Byte)}
    (hs : s ∈ r.env session) : s.1 ∈ envCodes := List.mem_map_of_mem hs

theorem read_env (session : ℕ) (r : Request) {a : Account} (ha : a.Between) :
    ((r.env session).flatMap fun s => stringFrames s.1 s.2).foldlM Account.take a =
      some (a.add ((r.env session).filterMap fun s => s.2.map (Prod.mk s.1)) []) := by
  have hcodes : ∀ code ∈ envCodes, code ∉ partCodes := by decide +kernel
  have hnone : (r.env session).filterMap (fun _ => (none : Option (List Byte × List Byte))) = [] :=
    List.filterMap_eq_nil_iff.mpr fun _ _ => rfl
  rw [← hnone]
  exact read_flatMap (fun s hs a ha => read_stringFrames (hcodes s.1 (env_code hs)) s.2 ha) ha

/-- A runner that reads the head gets the fields and the headers of the request. -/
theorem readAll_headFrames (session : ℕ) (r : Request) :
    Account.readAll (headFrames session r) = some (r.account session [] false) := by
  have hstart : Account.empty.Between := ⟨rfl, rfl⟩
  have henv := read_env session r hstart
  have hheaders := read_flatMap (fun hdr (_ : hdr ∈ r.headersIn) a ha => read_headerFrames hdr ha)
    (hstart.add ((r.env session).filterMap fun s => s.2.map (Prod.mk s.1)) [])
  have hadded := read_flatMap
    (fun hdr (_ : hdr ∈ r.subprocessEnv) a ha => read_addedFrames r.user hdr ha)
    ((hstart.add ((r.env session).filterMap fun s => s.2.map (Prod.mk s.1)) []).add
      (r.headersIn.filterMap headerField) (r.headersIn.filterMap headerPair))
  rw [Account.readAll, headFrames, List.foldlM_append, henv, Option.bind_eq_bind,
    Option.bind_some, List.foldlM_append, hheaders, Option.bind_eq_bind, Option.bind_some, hadded,
    Account.add_add, Account.add_add]
  rfl

/-! ## What a browser has no hand in -/

/-- The fields that are not made from the headers of the browser. -/
def Account.trusted (a : Account) : List (Byte × List Byte) :=
  a.fields.filter fun f => f.1 ≠ cseContentType ∧ f.1 ≠ cseContentLength

theorem headerField_code {hdr : Option (List Byte) × List Byte} {f : Byte × List Byte}
    (h : headerField hdr = some f) : f.1 = cseContentType ∨ f.1 = cseContentLength := by
  obtain ⟨key, val⟩ := hdr
  cases key with
  | none => cases h
  | some key =>
      simp only [headerField] at h
      split at h
      · cases h
        exact Or.inl rfl
      · split at h
        · cases h
          exact Or.inr rfl
        · cases h

/-- Whatever headers the browser sends, the other fields are what they are without them. -/
theorem trusted_account (session : ℕ) (r : Request) (hdrs : List (Option (List Byte) × List Byte))
    (body body' : List (List Byte)) (complete complete' : Bool) :
    (({ r with headersIn := hdrs } : Request).account session body complete).trusted =
      (r.account session body' complete').trusted := by
  have hnone (hs : List (Option (List Byte) × List Byte)) :
      (hs.filterMap headerField).filter
        (fun f => decide (f.1 ≠ cseContentType ∧ f.1 ≠ cseContentLength)) = [] := by
    refine List.filter_eq_nil_iff.mpr fun f hf => ?_
    obtain ⟨hdr, -, hfield⟩ := List.mem_filterMap.mp hf
    have hcode := headerField_code hfield
    simp only [decide_eq_true_eq, not_and_or, not_not]
    exact hcode
  simp only [Account.trusted, Request.account, Request.fields, List.filter_append, hnone]
  rfl

/-! ## On the wire -/

/-- The path of the request fits the array of `write_env`, and every string of the head fits
the buffer of the stream. -/
structure Request.Fits (session : ℕ) (r : Request) : Prop where
  path : (r.unparsedUri.takeWhile (· ≠ 63)).length < 1024
  strings : ∀ f ∈ headFrames session r, f.payload.length ≤ bufLength

theorem writeHead_written {x : Relay} (h : x.conn.Sends) {session : ℕ} {r : Request}
    (hfits : r.Fits session) :
    (x.writeHead session r).conn.Sends ∧
      (x.writeHead session r).conn.written =
        x.conn.written ++ encodeAll (headFrames session r) := by
  obtain ⟨hsends, -, hwritten⟩ := writePackets_spec h (headFrames session r)
  rw [(sentPackets_eq_encodeAll_iff _).mpr hfits.strings, ← writeHead_frames] at hwritten
  rw [← writeHead_frames] at hsends
  exact ⟨hsends, hwritten⟩

end ModCaucho
