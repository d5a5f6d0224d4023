import Tcf.Base.Process
import Tcf.PathMap

/-! The rules of a path map, and what they make of the name of a file. -/
namespace Tcf.PathMap

inductive Mode where
  | toClient
  | toLocal
  | toTarget
  deriving DecidableEq, Repr

structure PathMapRule where
  src : Option Text
  dst : Option Text
  host : Option Text
  prot : Option Text
  query : Option Text
  ctx : Option Text
  deriving DecidableEq, Repr

/-- The group of a context that its symbols are of. -/
structure SymsGroup where
  id : Text
  name : Option Text
  fullName : Text
  deriving DecidableEq, Repr

/-- What a rule is asked for: `query` is `context_query` for the context, if there is any, and `stat` says which files are there. -/
structure Setting where
  mode : Mode
  isMyHost : Text → Bool
  syms : Option SymsGroup
  query : Option (Text → Bool)
  stat : Text → Bool

def toLower (c : UInt8) : UInt8 := if 0x41 ≤ c ∧ c ≤ 0x5a then c + 0x20 else c

def strcasecmp (a b : Text) : Bool := a.map toLower = b.map toLower

/-- `"file"` -/
def fileProtocol : Text := [0x66,0x69,0x6c,0x65]

def SymsGroup.isNamed (syms : SymsGroup) (ctx : Text) : Bool :=
  ctx = syms.id ∨ syms.name.any fun name => ctx = name ∨ ctx = syms.fullName

variable (setting : Setting)

/-- The source and the destination of a rule that is not passed over. -/
def PathMapRule.considered (r : PathMapRule) : Option (Text × Text) :=
  match r.src, r.dst with
  | some src, some dst =>
    if r.prot.any fun prot => ¬strcasecmp prot fileProtocol then none
    else if setting.mode = .toLocal ∧ r.host.any fun host => ¬setting.isMyHost host then none
    else if r.ctx.any fun ctx => ¬setting.syms.any fun syms => syms.isNamed ctx then none
    else if r.query.any fun query => ¬setting.query.any fun ask => ask query then none
    else some (src,dst)
  | _, _ => none

/-- `dst[dst_len - 1]`, or 0. -/
def lastChar (s : Text) : UInt8 := charAt s (s.length - 1)

/-- `r->src[k - 1]`, or 0: the source as it is written, at the length of the canonical one. -/
def lastSrcChar (src : Text) (k : Nat) : UInt8 := if k = 0 then 0 else charAt src (k - 1)

/-- The name behind the first `k` characters, with the destination in front. An index in front of the name is far behind it. -/
def replaceSource (src dst fnm : Text) (k : Nat) : Code (Option Text) :=
  if charAt fnm k = 0 then pure (some dst)
  else if ¬isSeparator (charAt fnm k) then
    if ¬isSeparator (lastChar dst) ∧ ¬isSeparator (lastSrcChar src k) then pure none
    else if k = 0 then .error .fault
    else pure (some (dst ++ fnm.drop (k - 1)))
  else if isSeparator (lastChar dst) then pure (some (dst ++ fnm.drop (k + 1)))
  else pure (some (dst ++ fnm.drop k))

/-- A local file has to be there. -/
def Setting.found (buf : Text) : Bool := setting.mode ≠ .toLocal ∨ setting.stat buf

def mapRule (fnm : Text) (r : PathMapRule) : Code (Option Text) :=
  match r.considered setting with
  | none => pure none
  | some rule =>
    let src := canonicPathMapFileName rule.1
    if fnm.take src.length ≠ src then pure none
    else do
      let buf ← replaceSource rule.1 rule.2 fnm src.length
      pure (buf.filter setting.found)

/-- The first rule that maps the name, by its number, and the name that it is mapped to. Else the name stays as it is. -/
def mapFileName (fnm : Text) : Nat → List PathMapRule → Code (Option (Nat × Text))
  | _, [] => pure none
  | i, r :: rules => do
    match ← mapRule setting fnm r with
    | none => mapFileName fnm (i + 1) rules
    | some buf => pure (some (i,buf))

end Tcf.PathMap
