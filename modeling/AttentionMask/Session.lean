import AttentionMask.Mask.Digest

/-! A session keeps masks under names and answers requests about them. A build or a conversion that
fails stores nothing, so a mask kept under that name stays; a request for a name that holds no mask
is answered as such. -/

namespace AttentionMask

structure Session where
  kept : List (String × Mask)

namespace Session

inductive Request where
  | build (name : String) (pattern : Pattern) (form : Option Mask.Form)
  | convert (form : Mask.Form) (source name : String)
  | inspect (source : String)
  | permitted (source : String) (pairs : List (UInt64 × UInt64))
  | keys (source : String) (row : UInt64)
  | stored (source : String) (row : UInt64)
  | image (source : String)
  | checksum (source : String)

inductive Reply where
  | refused (fault : Fault)
  | tooLarge (overflow : Size.Overflow)
  | unknown
  | summary (figures : Mask.Summary) (digest : Option UInt64)
  | flags (values : List Bool)
  | keys (values : List UInt64)
  | stored (row : Mask.StoredRow)
  | image (rows : List (List Bool))
  | checksum (value : UInt64)

def empty : Session :=
  ⟨[]⟩

def find? (s : Session) (name : String) : Option Mask :=
  s.kept.lookup name

def keep (s : Session) (name : String) (m : Mask) : Session :=
  ⟨(name, m) :: s.kept.filter fun entry => entry.1 != name⟩

/-- Keep a mask and answer its figures. -/
def store (s : Session) (name : String) (m : Mask) : Session × Reply :=
  (s.keep name m, .summary m.summary none)

/-- The reply of a question about a kept mask. -/
def ask (s : Session) (source : String) (question : Mask → Reply) : Session × Reply :=
  match s.find? source with
  | none => (s, .unknown)
  | some m => (s, question m)

/-- The check value of a stored image with its padding; runs store no image. -/
def storedChecksum : Mask → Reply
  | .grid g => .checksum (Crc64.ofBytes g.bytes)
  | .runs _ => .unknown

def answer (s : Session) : Request → Session × Reply
  | .build name pattern form =>
    match Mask.buildAs (form.getD .preferred) pattern with
    | .error fault => (s, .refused fault)
    | .ok m => s.store name m
  | .convert form source name =>
    match s.find? source with
    | none => (s, .unknown)
    | some m =>
      match m.convert form with
      | .error overflow => (s, .tooLarge overflow)
      | .ok converted => s.store name converted
  | .inspect source => s.ask source fun m => .summary m.summary (some m.digest)
  | .permitted source pairs =>
    s.ask source fun m => .flags (pairs.map fun pair => m.allows pair.1 pair.2)
  | .keys source row => s.ask source fun m => .keys (m.rowKeys row)
  | .stored source row => s.ask source fun m => .stored (m.storedRow row)
  | .image source => s.ask source fun m => .image m.rows
  | .checksum source => s.ask source storedChecksum

/-- The replies to a list of requests, each answered by the session that the ones before it left. -/
def run (s : Session) : List Request → List Reply
  | [] => []
  | request :: rest =>
    let answered := s.answer request
    answered.2 :: run answered.1 rest

@[simp] theorem find?_keep (s : Session) (name : String) (m : Mask) :
    (s.keep name m).find? name = some m := by
  simp [keep, find?]

end Session
end AttentionMask
