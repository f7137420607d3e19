import LasFile.Text.Blank

/-!
# Point compression

The kinds of compression that a file or an option can name. Only plain points are read and written.
-/

namespace LasFile

inductive Compression where
  | laszip
  | lazperf
  | plain
  deriving DecidableEq, Repr, Inhabited

namespace Compression

def name : Compression → String
  | laszip => "LasZip"
  | lazperf => "LazPerf"
  | plain => "None"

/-- The kind named by an option. Any other word means no compression. -/
def ofOption (text : String) : Compression :=
  match Text.keyword text with
  | "laszip" | "true" => laszip
  | "lazperf" => lazperf
  | _ => plain

end Compression

end LasFile
