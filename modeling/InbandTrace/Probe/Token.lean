import InbandTrace.Net.Address
/-!
The token of a probe. A router quotes the IP header and eight more bytes of the datagram it drops,
so both ports and the total length come back in every error; the probes of one connection differ
in the length alone.
-/

namespace InbandTrace

structure Flow where
  src : Net.Socket
  dst : Net.Socket
  deriving DecidableEq, Repr, Inhabited

structure Token where
  flow : Flow
  ipLength : UInt16
  deriving DecidableEq, Repr, Inhabited

def Flow.between (src dst : Net.Socket) : Flow := ⟨src.canonical, dst.canonical⟩

def Flow.text (f : Flow) : List Char := f.src.text ++ "->".toList ++ f.dst.text

def Token.text (t : Token) : List Char :=
  t.flow.text ++ " len=".toList ++ Text.decimal t.ipLength.toNat

end InbandTrace
