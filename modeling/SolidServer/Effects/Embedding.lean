import SolidServer.Effects.Program

/-!
# Programs over a larger signature

A component is written over the operations it needs.  Where it runs beside components that
need others, it is read as a program over the larger signature: its operations and its errors
are translated, its control flow stays.
-/

namespace SolidServer.Effects

variable {S T : Signature} {ε ε' α β : Type}

/-- A translation of signatures: where operations go, and how answers come back. -/
structure Embedding (S T : Signature) where
  op : S.Op → T.Op
  answer : (o : S.Op) → T.Res (op o) → S.Res o

namespace Program

variable (f : Embedding S T) (err : ε → ε')

/-- The program over the larger signature. -/
def embed : Program S ε α → Program T ε' α
  | .ret (.ok a) => .ret (.ok a)
  | .ret (.error e) => .ret (.error (err e))
  | .step o k => .step (f.op o) fun r => (k (f.answer o r)).embed

@[simp] theorem embed_pure (a : α) :
    embed f err (pure a : Program S ε α) = (pure a : Program T ε' α) := rfl

@[simp] theorem embed_throw (e : ε) :
    embed f err (throw e : Program S ε α) = (throw (err e) : Program T ε' α) := rfl

@[simp] theorem embed_call_bind (o : S.Op) (k : S.Res o → Program S ε α) :
    embed f err (call o >>= k) =
      (call (f.op o) >>= fun r => embed f err (k (f.answer o r)) : Program T ε' α) := rfl

@[simp] theorem embed_bind (p : Program S ε α) (k : α → Program S ε β) :
    embed f err (p >>= k) = (embed f err p >>= fun a => embed f err (k a) : Program T ε' β) := by
  show embed f err (p.bind k) = (embed f err p).bind fun a => embed f err (k a)
  induction p with
  | ret r => cases r <;> rfl
  | step o g ih =>
    simp only [bind, embed]
    congr 1
    funext r
    exact ih (f.answer o r)

end Program

end SolidServer.Effects
