namespace InbandTrace

structure Fault where
  text : String
  deriving DecidableEq, Repr, Inhabited

end InbandTrace
