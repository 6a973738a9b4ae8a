import LempelZiv.Command.Files
import LempelZiv.Frame.Reader

namespace LempelZiv

/-- Files are read and written so many bytes at a time. -/
def fileChunk : Nat := 8192

/-- The system keeps no file longer than this. -/
def largestFile : Nat := 17592186044416

/-- How much of the output is in its file after a piece of `n` more bytes. Small pieces wait until
the next would make them more than a chunk. -/
def storedAfter (size stored n : Nat) : Nat :=
  if fileChunk ≤ n then size + n
  else if stored + fileChunk < size + n then size
  else stored

/-- A source whose file is now `file`. What has been taken in of the old one stays. -/
def reread (s : Source ReadAhead) (file : ByteArray) : Source ReadAhead :=
  let taken := min s.feed.taken s.data.size
  { s with
    feed := { s.feed with taken }
    data := s.data.extract 0 taken ++ file.extract taken file.size }

/-- Goes on decoding a frame into its own file. `out` is what has been decoded, and the file holds
the first `stored` bytes of it. A frame may run on into its own output, so that nothing but the
longest file bounds such a run. -/
def overwriteFrom (r : Reader ReadAhead) (out : ByteArray) (stored pieces : Nat) :
    Reader.Drained ReadAhead :=
  match r.read fileChunk with
  | .gave more next _ hpos =>
    if hsize : out.size + more.size ≤ largestFile then
      let stored := storedAfter out.size stored more.size
      let grown := out ++ more
      overwriteFrom { next with source := reread next.source (grown.extract 0 stored) } grown stored
        (pieces + 1)
    else ⟨out, pieces, some (.stream FileError.tooLarge.toStream), next⟩
  | .ended next => ⟨out, pieces, none, next⟩
  | .failed e next => ⟨out, pieces, some e, next⟩
  termination_by largestFile - out.size
  decreasing_by
    show largestFile - (out ++ more).size < largestFile - out.size
    rw [ByteArray.size_append]
    omega

/-- Decodes a frame into its own file, which is empty at first. -/
def overwrite (r : Reader ReadAhead) : Reader.Drained ReadAhead :=
  overwriteFrom { r with source := reread r.source ByteArray.empty } ByteArray.empty 0 0

end LempelZiv
