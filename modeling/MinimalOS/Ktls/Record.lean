import MinimalOS.Ktls.Gcm

/-!
# The ktls record layer of `impl/net/tls.c`

`ktls_send` puts one record on the wire: a length, a nonce, the ciphertext and the tag.
`ktls_read` is re-entered after any number of bytes and keeps what it has of a length header, of
a record body or of a decrypted record in the connection.

The receiving TCP connection is the list of bytes not handed over yet. How much `tcp_recv` hands
over is up to the machine (`Env.cut`), as is the outcome of a heap request; each consultation has
its own number.
-/

namespace MinimalOS.Ktls

abbrev maxRecord : ℕ := 64 * 1024
abbrev minBody : ℕ := 12 + 16

inductive State where
  | dead
  | handshake
  | established
  deriving DecidableEq

/-- The fields of `ktls_conn_t` that the record functions use. `rxHdr` and `rxBody` are the bytes
received so far, `pt` is the decrypted record that is being handed out. -/
structure Conn where
  key : Key
  state : State
  rxHdr : List UInt8
  rxBodyLen : ℕ
  rxBody : List UInt8
  pt : Option (List UInt8)
  ptPos : ℕ

def Conn.markDead (k : Conn) : Conn := { k with state := .dead }

def Conn.fresh (key : Key) : Conn where
  key := key
  state := .established
  rxHdr := []
  rxBodyLen := 0
  rxBody := []
  pt := none
  ptPos := 0

structure Env where
  /-- How many bytes `tcp_recv` has ready. -/
  cut : ℕ → ℕ
  /-- Does `tcp_recv` report the end of a stream that has been handed over completely? -/
  closed : ℕ → Bool
  heap : ℕ → Bool

structure Tcp where
  rest : List UInt8
  calls : ℕ

def Tcp.tick (t : Tcp) : Tcp := { t with calls := t.calls + 1 }

/-- `none` is the result `-1`. -/
def tcpRecv (env : Env) (len : ℕ) (t : Tcp) : Option (List UInt8) × Tcp :=
  if t.rest = [] ∧ env.closed t.calls then (none, t.tick)
  else
    let n := min (env.cut t.calls) len
    (some (t.rest.take n), { rest := t.rest.drop n, calls := t.calls + 1 })

/-! ## Sending -/

def be32 (n : ℕ) : List UInt8 :=
  [UInt8.ofNat (n / 2 ^ 24), UInt8.ofNat (n / 2 ^ 16), UInt8.ofNat (n / 2 ^ 8), UInt8.ofNat n]

def fromBe32 (s : List UInt8) : ℕ := s.foldl (fun r b => r * 256 + b.toNat) 0

def frame (c : Cipher) (key : Key) (nonce : Nonce) (data : List UInt8) : List UInt8 :=
  let sealed := gcmEncrypt c key nonce data
  be32 (minBody + data.length) ++ (List.ofFn nonce ++ sealed.1 ++ List.ofFn sealed.2)

/-- One call of `ktls_send`: the payload, the random nonce, the outcome of the heap request and, if
`tcp_send` fails, the number of bytes that it had put on the wire by then. These can be all of them,
if only the acknowledgement is missing. -/
structure Send where
  data : List UInt8
  nonce : Nonce
  heap : Bool
  stalled : Option ℕ

/-- The result, the bytes that went out, and whether the connection is still established. -/
def ktlsSend (c : Cipher) (key : Key) (established : Bool) (s : Send) :
    Bool × List UInt8 × Bool :=
  if established = false ∨ s.data.length = 0 ∨ maxRecord < s.data.length ∨ s.heap = false then
    (false, [], established)
  else
    match s.stalled with
    | none => (true, frame c key s.nonce s.data, true)
    | some n => (false, (frame c key s.nonce s.data).take n, false)

/-- A sequence of sends: the payloads whose records went out to the last byte, and the stream on the
wire. The payload of a send that succeeds is one of these. -/
def sendAll (c : Cipher) (key : Key) : Bool → List Send → List (List UInt8) × List UInt8
  | _, [] => ([], [])
  | established, s :: rest =>
    let r := ktlsSend c key established s
    let later := sendAll c key r.2.2 rest
    (if r.2.1 = frame c key s.nonce s.data then s.data :: later.1 else later.1, r.2.1 ++ later.2)

/-! ## Receiving -/

/-- What `ktls_read` returns, `none` for `-1`, with the state it leaves. -/
abbrev Returned := Option (List UInt8) × Conn × Tcp

/-- Step 1: hand out plaintext that is already authenticated. -/
def deliver (k : Conn) (pt : List UInt8) (cap : ℕ) : List UInt8 × Conn :=
  let n := min (pt.length - k.ptPos) cap
  ((pt.drop k.ptPos).take n,
    if pt.length ≤ k.ptPos + n then { k with pt := none, ptPos := 0 }
    else { k with ptPos := k.ptPos + n })

/-- Step 2: the length header. `.error` is a return of `ktls_read`. -/
def readHeader (env : Env) (k : Conn) (t : Tcp) : Except Returned (Conn × Tcp) :=
  if k.rxBodyLen ≠ 0 then .ok (k, t)
  else
    match tcpRecv env (4 - k.rxHdr.length) t with
    | (none, t) => .error (none, k.markDead, t)
    | (some chunk, t) =>
      if chunk = [] then .error (some [], k, t)
      else if (k.rxHdr ++ chunk).length < 4 then
        .error (some [], { k with rxHdr := k.rxHdr ++ chunk }, t)
      else
        let bodyLen := fromBe32 (k.rxHdr ++ chunk)
        let k := { k with rxHdr := [] }
        if bodyLen < minBody ∨ maxRecord < bodyLen - minBody then .error (none, k.markDead, t)
        else if env.heap t.calls then .ok ({ k with rxBodyLen := bodyLen, rxBody := [] }, t.tick)
        else .error (none, k.markDead, t.tick)

def bytesAt (n : ℕ) (s : List UInt8) : Fin n → UInt8 := fun i => s[i.val]?.getD 0

/-- Step 4: authenticate and decrypt a complete body. -/
def openBody (c : Cipher) (key : Key) (body : List UInt8) : Option (List UInt8) :=
  let ptLen := body.length - minBody
  gcmDecrypt c key (bytesAt 12 body) ((body.drop 12).take ptLen)
    (bytesAt 16 (body.drop (12 + ptLen)))

/-- Steps 3 and 4: the body, and the record once it is complete. -/
def readBody (c : Cipher) (env : Env) (k : Conn) (t : Tcp) : Except Returned (Conn × Tcp) :=
  match tcpRecv env (k.rxBodyLen - k.rxBody.length) t with
  | (none, t) => .error (none, k.markDead, t)
  | (some chunk, t) =>
    if chunk = [] then .error (some [], k, t)
    else if (k.rxBody ++ chunk).length < k.rxBodyLen then
      .error (some [], { k with rxBody := k.rxBody ++ chunk }, t)
    else
      let body := k.rxBody ++ chunk
      let k := { k with rxBody := [], rxBodyLen := 0 }
      -- an empty record needs no buffer for its plaintext
      if body.length = minBody then
        match openBody c k.key body with
        | none => .error (none, k.markDead, t)
        | some _ => .ok (k, t)
      else if env.heap t.calls then
        match openBody c k.key body with
        | none => .error (none, k.markDead, t.tick)
        | some pt => .ok ({ k with pt := some pt, ptPos := 0 }, t.tick)
      else .error (none, k.markDead, t.tick)

/-- The `for (;;)` of `ktls_read`, for at most `n` rounds. -/
def readLoop (c : Cipher) (env : Env) (cap : ℕ) : ℕ → Conn → Tcp → Option Returned
  | 0, _, _ => none
  | n + 1, k, t =>
    match k.pt with
    | some pt => some (some (deliver k pt cap).1, (deliver k pt cap).2, t)
    | none =>
      if k.state ≠ .established then some (none, k, t)
      else
        match readHeader env k t with
        | .error r => some r
        | .ok (k, t) =>
          match readBody c env k t with
          | .error r => some r
          | .ok (k, t) => readLoop c env cap n k t

/-- `ktls_read`. A round that does not return takes at least one byte off the stream, so the
rounds given here are enough (`ktlsRead_isSome`). -/
def ktlsRead (c : Cipher) (env : Env) (cap : ℕ) (k : Conn) (t : Tcp) : Option Returned :=
  if cap = 0 then some (none, k, t) else readLoop c env cap (t.rest.length + 2) k t

def readAll (c : Cipher) (env : Env) : List ℕ → Conn → Tcp → Option (List UInt8 × Conn × Tcp)
  | [], k, t => some ([], k, t)
  | cap :: caps, k, t => do
    let (got, k, t) ← ktlsRead c env cap k t
    let (later, k, t) ← readAll c env caps k t
    pure (got.getD [] ++ later, k, t)

end MinimalOS.Ktls
