import BidQuorum.Transaction

set_option autoImplicit false

/-! # Codecs

How transactions are put into proposals is the application's choice. A codec is a pair of partial
functions; the standard one uses the format that transactions are hashed in. -/

namespace BidQuorum

/-- The ways a codec can fail, each with the reason it gives. -/
inductive CodecError where
  | encode (reason : String)
  | decode (reason : String)
deriving DecidableEq

def CodecError.message : CodecError → String
  | encode reason => s!"failed to encode transaction: {reason}"
  | decode reason => s!"failed to decode transaction: {reason}"

/-- Converts transactions to and from the bytes that are placed into proposals. -/
structure TxCodec where
  encode : Transaction → Except CodecError Bytes
  decode : Bytes → Except CodecError Transaction

/-- The standard codec: it refuses only transactions that are too long to be written, and reads
exactly what it writes. -/
def TxCodec.standard : TxCodec where
  encode tx :=
    match tx.write with
    | .ok bytes => .ok bytes
    | .error reason => .error (.encode reason)
  decode bytes :=
    match Transaction.format.decode bytes with
    | .ok tx => .ok tx
    | .error e => .error (.decode e.message)

end BidQuorum
