import LempelZiv.Size

namespace LempelZiv

/-- A place for encoded bytes. Only one of fixed size can refuse. -/
class ByteSink (σ : Type) where
  put : σ → UInt8 → Except Fault σ
  putAll : σ → ByteArray → Except Fault σ

export ByteSink (put putAll)

instance : ByteSink ByteArray where
  put out b := .ok (out.push b)
  putAll out bytes := .ok (out ++ bytes)

/-- A buffer of fixed size that fills from the front. -/
structure Window where
  buffer : ByteArray
  filled : Nat

def Window.put (w : Window) (b : UInt8) : Except Fault Window :=
  let ⟨buffer, filled⟩ := w
  if h : filled < buffer.size then .ok ⟨buffer.set filled b h, filled + 1⟩
  else .error .outOfRange

def Window.putAll (w : Window) (bytes : ByteArray) : Except Fault Window :=
  let ⟨buffer, filled⟩ := w
  if filled + bytes.size ≤ buffer.size then
    .ok ⟨bytes.copySlice 0 buffer filled bytes.size, filled + bytes.size⟩
  else .error .outOfRange

instance : ByteSink Window where
  put := Window.put
  putAll := Window.putAll

end LempelZiv
