import Triliteral.Engine.Request

/-!
An engine that clients share. Whoever makes a request holds the lock until it is answered, so that
requests are carried out one at a time and as a whole; in which order the clients get the lock, and
when, is left open.
-/

namespace Triliteral

/-- An engine with the requests that its clients have still to make, a queue for each client. -/
structure Shared where
  engine : Engine
  waiting : List (List Request)

/-- What happened while a client held the lock, with the engine as it was found and as it was
left. -/
structure Turn where
  client : Nat
  now : Occasion
  request : Request
  response : Response
  before : Engine
  after : Engine

namespace Shared

inductive Step : Shared → Turn → Shared → Prop
  | turn {shared : Shared} {client : Nat} {request : Request} {rest : List Request}
      (hwaiting : shared.waiting[client]? = some (request :: rest)) (now : Occasion) :
      Step shared
        { client, now, request
          response := (shared.engine.perform now request).1
          before := shared.engine
          after := (shared.engine.perform now request).2 }
        { engine := (shared.engine.perform now request).2
          waiting := shared.waiting.set client rest }

inductive Run : Shared → List Turn → Shared → Prop
  | stay (shared : Shared) : Run shared [] shared
  | step {first next last : Shared} {turn : Turn} {turns : List Turn}
      (head : Step first turn next) (tail : Run next turns last) : Run first (turn :: turns) last

def Finished (shared : Shared) : Prop :=
  ∀ requests ∈ shared.waiting, requests = []

end Shared

end Triliteral
