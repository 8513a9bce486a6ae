import Acng.Registry

namespace Acng
open Lib

/-- What a downloader or a client does to a storage item at one point of time. -/
inductive Works (env : Env) (fi : FileItem) : FileItem → Prop
  | setup : Works env fi fi.setup
  | dlRefCountAdd : Works env fi fi.dlRefCountAdd
  | dlRefCountDec (reason : RemoteStatus) : Works env fi (fi.dlRefCountDec reason)
  | dlSetError (errState : RemoteStatus) (kmode : EDestroyMode) :
      Works env fi (fi.dlSetError errState kmode)
  | incomming (job : DlJob) (buf : Bytes) (io : Io) (bOnlyRedirectionActivity : Bool) :
      Works env fi ((⟨job, fi, buf⟩ : Dl).procStep env io bOnlyRedirectionActivity).1.fi

namespace Registry

/-- The histories with a clock that does not run backwards, and without a shutdown. -/
inductive Clocked (cfg : RegistryCfg) (env : Env) : Int → Registry → Prop
  | start (t : Int) (ht : 0 ≤ t) : Clocked cfg env t {}
  | wait {t w} (t' : Int) (h : Clocked cfg env t w) (ht : t ≤ t') : Clocked cfg env t' w
  | make {t w} (fi : FileItem) (h : Clocked cfg env t w) (hf : fi.nTimeDlStarted = 0) :
      Clocked cfg env t (w.call cfg (.make fi))
  | createFor {t w} (path : Bytes) (how : ESharingHow) (spattr : SpecialPurposeAttr) (io : CreateIo)
      (h : Clocked cfg env t w) : Clocked cfg env t (w.call cfg (.createFor path how spattr t io))
  | createCustom {t w} (i : Nat) (isShareable : Bool) (h : Clocked cfg env t w) :
      Clocked cfg env t (w.call cfg (.createCustom i isShareable))
  | moveConstruct {t w} (src : Nat) (h : Clocked cfg env t w) :
      Clocked cfg env t (w.call cfg (.moveConstruct src))
  | moveAssign {t w} (dst src : Nat) (h : Clocked cfg env t w) :
      Clocked cfg env t (w.call cfg (.moveAssign dst src))
  | works {t w} (i : Nat) (fi : FileItem) (h : Clocked cfg env t w)
      (hw : Works { env with now := t } (w.items i).fi fi) :
      Clocked cfg env t (w.call cfg (.touch i fi))
  /-- An item of another class. The time is only set by the downloader. -/
  | foreign {t w} (i : Nat) (fi : FileItem) (h : Clocked cfg env t w)
      (hf : fi.nTimeDlStarted = (w.items i).fi.nTimeDlStarted ∨ fi.nTimeDlStarted = t) :
      Clocked cfg env t (w.call cfg (.touch i fi))
  | destroy {t w} (k : Nat) (h : Clocked cfg env t w) :
      Clocked cfg env t (w.apply cfg (.destroy k ⟨t, false⟩))
  | backgroundCleanup {t w} (t' : Int) (rel : Nat → Release) (h : Clocked cfg env t w)
      (hrel : ∀ n, t ≤ (rel n).now ∧ (rel n).now ≤ t' ∧ (rel n).inShutdown = false) :
      Clocked cfg env t' (w.apply cfg (.backgroundCleanup t rel))

/-- The item was created, or its download was started, not too long ago. -/
def Recent (cfg : RegistryCfg) (t0 : Int) (fi : FileItem) (t : Int) : Prop :=
  t ≤ t0 + cfg.stucksecs ∨
    (fi.nTimeDlStarted ≠ 0 ∧ t ≤ fi.nTimeDlStarted + cfg.stucksecs)

/-- A response head for the item has been taken, or the clock is still at its beginning. -/
def HeadTaken (cfg : RegistryCfg) (fi : FileItem) (t : Int) : Prop :=
  fi.nTimeDlStarted ≠ 0 ∨ t ≤ cfg.stucksecs

/-- An operation that has nothing to do with the item under this key, or shares it in any case,
or drops some of its users. -/
def Op.Aside (cfg : RegistryCfg) (k : Bytes) (i : Nat) : Op → Prop
  | .call (.createFor path how _ _ _) => cfg.normalizePath path = k → how = .alwaysTrySharing
  | .call (.touch j _) => j ≠ i
  | _ => True

/-- The item `i` was created at `t0` for a volatile path, clients with the same attributes ask
for the path, and the downloader works on the item, as long as it has a user. With `strict`
the clients come after the first response head. -/
inductive Requests (cfg : RegistryCfg) (env : Env) (strict : Bool) (k : Bytes)
    (spattr : SpecialPurposeAttr) (t0 : Int) (i : Nat) : Int → Registry → Prop
  | first (ops : List Op) (path : Bytes) (io : CreateIo) (hops : ConflictFree cfg {} ops)
      (ht : 0 ≤ t0) (hk : cfg.normalizePath path = k) (hnone : (run cfg {} ops).mapItems k = none)
      (hv : spattr.bVolatile = true) (hi : i = (run cfg {} ops).next) :
      Requests cfg env strict k spattr t0 i t0
        ((run cfg {} ops).call cfg (.createFor path .autoMoveOutOfTheWay spattr t0 io))
  | wait {t w} (t' : Int) (h : Requests cfg env strict k spattr t0 i t w) (ht : t ≤ t') :
      Requests cfg env strict k spattr t0 i t' w
  | request {t w} (path : Bytes) (io : CreateIo) (h : Requests cfg env strict k spattr t0 i t w)
      (hk : cfg.normalizePath path = k) (hr : Recent cfg t0 (w.items i).fi t)
      (ok : strict = true → HeadTaken cfg (w.items i).fi t) :
      Requests cfg env strict k spattr t0 i t
        (w.call cfg (.createFor path .autoMoveOutOfTheWay spattr t io))
  | works {t w} (fi : FileItem) (h : Requests cfg env strict k spattr t0 i t w)
      (hw : Works { env with now := t } (w.items i).fi fi) :
      Requests cfg env strict k spattr t0 i t (w.call cfg (.touch i fi))
  | aside {t w} (op : Op) (h : Requests cfg env strict k spattr t0 i t w) (ha : op.Aside cfg k i)
      (hc : op.ConflictFree w) (hu : 1 ≤ (w.apply cfg op).users i) :
      Requests cfg env strict k spattr t0 i t (w.apply cfg op)

end Registry

end Acng
