/-
Mount namespaces. A mount shows a place of a volume at its mountpoint and below;
of the mounts on the way to a path the latest one answers for it (`look_attach`).
A lookup starts at the root directory and enters nothing mounted there. A plain
bind shows what its source shows without the mounts below, a recursive one copies
them too and so changes no lookup (`look_bindRec`).

Binding paths onto themselves one after another moves every path below them onto
the mount of the shallowest: `foldl_rebase`.
-/
import Mathlib.Data.List.Infix
import Mathlib.Data.List.TakeWhile

namespace Mounts

variable {V N T : Type}

/-- A lookup of `q` enters what is mounted at `p`. -/
def OnWay (p q : List N) : Prop := p ≠ [] ∧ p <+: q

instance [DecidableEq N] {p q : List N} : Decidable (OnWay p q) := inferInstanceAs (Decidable (_ ∧ _))

theorem OnWay.refl {p : List N} (h : p ≠ []) : OnWay p p := ⟨h, List.prefix_rfl⟩

theorem OnWay.extend {p q r : List N} (h : OnWay p q) (hq : q <+: r) : OnWay p r := ⟨h.1, h.2.trans hq⟩

theorem OnWay.ne_nil {p q : List N} (h : OnWay p q) : q ≠ [] := fun hq => h.1 (List.prefix_nil.mp (hq ▸ h.2))

/-- Of two paths on the way one is on the way to the other. -/
theorem OnWay.or {p p' q : List N} (h : OnWay p q) (h' : OnWay p' q) : OnWay p p' ∨ OnWay p' p :=
  (List.prefix_or_prefix_of_prefix h.2 h'.2).imp (fun hp => ⟨h.1, hp⟩) fun hp => ⟨h'.1, hp⟩

/-- A place in a volume. -/
structure Place (V N : Type) where
  vol : V
  path : List N
  deriving DecidableEq, Repr

/-- What a lookup reaches, and whether through a read-only mount. -/
structure View (V N : Type) where
  place : Place V N
  readonly : Bool := false
  deriving DecidableEq, Repr

def Place.below (o : Place V N) (rest : List N) : Place V N := { o with path := o.path ++ rest }

def View.below (v : View V N) (rest : List N) : View V N := { v with place := v.place.below rest }

structure Mount (V N T : Type) where
  point : List N
  view : View V N
  tag : T
  deriving DecidableEq, Repr

/-- What the mount shows at `q`. -/
def Mount.shows (m : Mount V N T) (q : List N) : View V N := m.view.below (q.drop m.point.length)

/-- The mount, read-only and tagged anew. -/
def Mount.lock (m : Mount V N T) (tag : T) : Mount V N T := { m with view := { m.view with readonly := true }, tag }

/-- The mount of the root directory and those made since, the latest first. -/
structure Namespace (V N T : Type) where
  root : Mount V N T
  later : List (Mount V N T)
  root_point : root.point = []

@[simp] theorem Place.below_nil {o : Place V N} : o.below [] = o := by simp [Place.below]

@[simp] theorem Place.below_below {o : Place V N} {a b : List N} : (o.below a).below b = o.below (a ++ b) := by
  simp [Place.below]

@[simp] theorem View.below_nil {v : View V N} : v.below [] = v := by simp [View.below]

@[simp] theorem View.below_below {v : View V N} {a b : List N} : (v.below a).below b = v.below (a ++ b) := by
  simp [View.below]

theorem drop_append_drop {p q s : List N} (hs : s <+: p) (hp : p <+: q) :
    p.drop s.length ++ q.drop p.length = q.drop s.length := by
  obtain ⟨a, rfl⟩ := hs
  obtain ⟨b, rfl⟩ := hp
  simp [List.append_assoc]

theorem shows_below {m : Mount V N T} {p q : List N} (hm : m.point <+: p) (h : p <+: q) :
    m.shows q = (m.shows p).below (q.drop p.length) := by
  rw [Mount.shows, Mount.shows, View.below_below, drop_append_drop hm h]

namespace Namespace

def attach (ns : Namespace V N T) (m : Mount V N T) : Namespace V N T := { ns with later := m :: ns.later }

/-- Nothing mounted after `m` is on the way to its mountpoint, but at that. -/
def HeldIn (m : Mount V N T) : List (Mount V N T) → Prop
  | [] => False
  | n :: ns => n = m ∨ (HeldIn m ns ∧ (OnWay n.point m.point → n.point = m.point))

/-- `m` is still where it was mounted. -/
def Held (ns : Namespace V N T) (m : Mount V N T) : Prop := HeldIn m ns.later

variable [DecidableEq N]

/-- The mount that answers for `q`. -/
def mountAt (ns : Namespace V N T) (q : List N) : Mount V N T :=
  (ns.later.find? fun m => OnWay m.point q).getD ns.root

/-- What looking up `q` reaches. -/
def look (ns : Namespace V N T) (q : List N) : View V N := (ns.mountAt q).shows q

/-- `MS_BIND` of `p` onto itself. -/
def bind (ns : Namespace V N T) (p : List N) (tag : T) : Namespace V N T := ns.attach ⟨p, ns.look p, tag⟩

/-- The mounts below `p` on the mount that answers for it. -/
def copies (ns : Namespace V N T) (p : List N) : List (Mount V N T) :=
  (ns.later.takeWhile fun m => ¬OnWay m.point p).filter fun m => OnWay p m.point

/-- `MS_BIND | MS_REC` of `p` onto itself. -/
def bindRec (ns : Namespace V N T) (p : List N) (tag : T) : Namespace V N T :=
  { ns with later := ns.copies p ++ ⟨p, ns.look p, tag⟩ :: ns.later }

/-- The mounts, with the first that answers for `p` locked. -/
def lockFirst (p : List N) (tag : T) : List (Mount V N T) → Option (List (Mount V N T))
  | [] => none
  | m :: ms => if OnWay m.point p then some (m.lock tag :: ms) else (lockFirst p tag ms).map (m :: ·)

/-- The mount that answers for `p` is read-only from now on. -/
def setReadonly (ns : Namespace V N T) (p : List N) (tag : T) : Namespace V N T :=
  match lockFirst p tag ns.later with
  | some later => { ns with later }
  | none => { ns with root := ns.root.lock tag, root_point := ns.root_point }

/-! ## Lookups -/

variable {ns : Namespace V N T} {m : Mount V N T} {p q : List N} {tag : T}

theorem mountAt_prefix : (ns.mountAt q).point <+: q := by
  unfold mountAt
  cases h : ns.later.find? fun m => OnWay m.point q with
  | none =>
    rw [Option.getD_none, ns.root_point]
    exact List.nil_prefix
  | some m =>
    have hm := List.find?_some h
    exact (of_decide_eq_true hm).2

theorem mountAt_attach : (ns.attach m).mountAt q = if OnWay m.point q then m else ns.mountAt q := by
  unfold mountAt attach
  rw [List.find?_cons]
  by_cases h : OnWay m.point q <;> simp [h]

theorem look_attach : (ns.attach m).look q = if OnWay m.point q then m.shows q else ns.look q := by
  unfold look
  rw [mountAt_attach]
  split <;> rfl

theorem look_attach_below (h : OnWay m.point q) : (ns.attach m).look q = m.shows q := by rw [look_attach, if_pos h]

theorem look_attach_other (h : ¬OnWay m.point q) : (ns.attach m).look q = ns.look q := by rw [look_attach, if_neg h]

theorem mountAt_mem : ns.mountAt q = ns.root ∨ ns.mountAt q ∈ ns.later := by
  unfold mountAt
  cases h : ns.later.find? fun m => OnWay m.point q with
  | none => exact .inl rfl
  | some m => exact .inr (List.mem_of_find?_eq_some h)

/-- Locking moves no mount. -/
theorem mem_setReadonly (h : m ∈ (ns.setReadonly p tag).later) : ∃ m' ∈ ns.later, m = m' ∨ m = m'.lock tag := by
  have go : ∀ {l l' : List (Mount V N T)}, lockFirst p tag l = some l' → m ∈ l' → ∃ m' ∈ l, m = m' ∨ m = m'.lock tag := by
    intro l
    induction l with
    | nil => exact fun h => nomatch h
    | cons n l ih =>
      intro l' hl hm
      unfold lockFirst at hl
      split at hl
      · cases hl
        rcases List.mem_cons.mp hm with rfl | hm
        · exact ⟨n, List.mem_cons_self .., .inr rfl⟩
        · exact ⟨m, List.mem_cons_of_mem _ hm, .inl rfl⟩
      · obtain ⟨l₁, h₁, rfl⟩ := Option.map_eq_some_iff.mp hl
        rcases List.mem_cons.mp hm with rfl | hm
        · exact ⟨m, List.mem_cons_self .., .inl rfl⟩
        · obtain ⟨m', hm', he⟩ := ih h₁ hm
          exact ⟨m', List.mem_cons_of_mem _ hm', he⟩
  unfold setReadonly at h
  split at h
  · next hl => exact go hl h
  · exact ⟨m, h, .inl rfl⟩

theorem root_setReadonly : (ns.setReadonly p tag).root = ns.root ∨ (ns.setReadonly p tag).root = ns.root.lock tag := by
  unfold setReadonly
  split
  · exact .inl rfl
  · exact .inr rfl

theorem mem_bindRec (h : m ∈ (ns.bindRec p tag).later) : m = ⟨p, ns.look p, tag⟩ ∨ m ∈ ns.later := by
  rcases List.mem_append.mp h with h | h
  · exact .inr ((List.takeWhile_sublist _).subset (List.mem_filter.mp h).1)
  · exact List.mem_cons.mp h

theorem mem_copies (h : m ∈ ns.copies p) : OnWay p m.point := of_decide_eq_true (List.mem_filter.mp h).2

/-- Below `p` the mount of `p` answers, unless one made on it since does. -/
theorem mountAt_copies (h : OnWay p q) :
    ns.mountAt q = ((ns.copies p).find? fun m => OnWay m.point q).getD (ns.mountAt p) := by
  unfold mountAt copies
  induction ns.later with
  | nil => rfl
  | cons m ms ih =>
    rw [List.find?_cons, List.find?_cons, List.takeWhile_cons]
    by_cases hp : OnWay m.point p
    · simp [hp, hp.extend h.2]
    · simp only [hp, not_false_eq_true, decide_true, if_true, decide_false, List.filter_cons]
      by_cases hq : OnWay m.point q
      · have hpm : OnWay p m.point := (h.or hq).resolve_right hp
        simp [hpm, hq]
      · by_cases hpm : OnWay p m.point <;> simpa [hq, hpm] using ih

/-- **A recursive bind changes no lookup.** -/
theorem look_bindRec : (ns.bindRec p tag).look q = ns.look q := by
  unfold look
  rw [mountAt, bindRec, List.find?_append, List.find?_cons]
  by_cases h : OnWay p q
  · rw [mountAt_copies h, decide_eq_true h]
    cases (ns.copies p).find? fun m => OnWay m.point q with
    | some m => rfl
    | none => exact (shows_below mountAt_prefix h.2).symm
  · have hnone : ((ns.copies p).find? fun m => OnWay m.point q) = none := by
      refine List.find?_eq_none.mpr fun m hm hq => h ?_
      exact (mem_copies hm).extend (of_decide_eq_true hq).2
    rw [hnone, decide_eq_false h]
    rfl

/-! ## Mounts that nothing has covered -/

end Namespace

/-! ## Paths bound onto themselves -/

/-- `s` is the shallowest of the paths on the way to `q`. -/
def Shallowest (ps : List (List N)) (s q : List N) : Prop := s ∈ ps ∧ OnWay s q ∧ ∀ p ∈ ps, OnWay p q → s <+: p

/-- Once `ps` are bound onto themselves, what `q` reaches is read through `s`: the
shallowest of them on the way to `q`, or `q` itself. -/
def ReadThrough (ps : List (List N)) (s q : List N) : Prop :=
  Shallowest ps s q ∨ (s = q ∧ ∀ p ∈ ps, ¬OnWay p q)

theorem ReadThrough.unique {ps : List (List N)} {s s' q : List N} (h : ReadThrough ps s q) (h' : ReadThrough ps s' q) :
    s = s' := by
  rcases h with ⟨hs, hsq, hmin⟩ | ⟨rfl, hnone⟩ <;> rcases h' with ⟨hs', hsq', hmin'⟩ | ⟨rfl, hnone'⟩
  · exact (hmin s' hs' hsq').eq_of_length_le (hmin' s hs hsq).length_le
  · exact absurd hsq (hnone' s hs)
  · exact absurd hsq' (hnone s' hs')
  · rfl

variable {W : Type} [DecidableEq N] {below : W → List N → W}

/-- What lookups reach after `p` is bound onto itself, if they reached `v` before. -/
def rebase (below : W → List N → W) (v : List N → W) (p : List N) : List N → W :=
  fun q => if OnWay p q then below (v p) (q.drop p.length) else v q

theorem rebase_below {v : List N → W} {p q : List N} (h : OnWay p q) :
    rebase below v p q = below (v p) (q.drop p.length) := if_pos h

theorem rebase_outside {v : List N → W} {p q : List N} (h : ¬OnWay p q) : rebase below v p q = v q := if_neg h

theorem foldl_rebase_none {q : List N} : ∀ {ps : List (List N)} {v : List N → W}, (∀ p ∈ ps, ¬OnWay p q) →
    ps.foldl (rebase below) v q = v q
  | [], _, _ => rfl
  | p :: ps, v, h => by
    rw [List.forall_mem_cons] at h
    rw [List.foldl_cons, foldl_rebase_none h.2, rebase_outside h.1]

/-- Paths below `s` bound onto themselves change nothing below `s` once that is all on one mount. -/
theorem foldl_rebase_based (hbelow : ∀ w a b, below (below w a) b = below w (a ++ b)) {s q : List N} {w : W} :
    ∀ {ps : List (List N)} {v : List N → W}, (∀ p ∈ ps, OnWay p q → s <+: p) →
    (∀ p, s <+: p → p <+: q → v p = below w (p.drop s.length)) → s <+: q →
    ps.foldl (rebase below) v q = below w (q.drop s.length)
  | [], v, _, hv, hs => hv q hs List.prefix_rfl
  | p :: ps, v, hps, hv, hs => by
    rw [List.forall_mem_cons] at hps
    rw [List.foldl_cons]
    refine foldl_rebase_based hbelow hps.2 (fun p' hs' hq' => ?_) hs
    by_cases hp : OnWay p p'
    · have hsp := hps.1 (hp.extend hq')
      rw [rebase_below hp, hv p hsp (hp.2.trans hq'), hbelow, drop_append_drop hsp hp.2]
    · rw [rebase_outside hp, hv p' hs' hq']

/-- **Of the paths bound, the shallowest on the way to `q` decides** what `q` reaches. -/
theorem foldl_rebase (hbelow : ∀ w a b, below (below w a) b = below w (a ++ b)) {s q : List N} :
    ∀ {ps : List (List N)} {v : List N → W}, Shallowest ps s q →
    ps.foldl (rebase below) v q = below (v s) (q.drop s.length)
  | [], _, h => nomatch h.1
  | p :: ps, v, ⟨hmem, hs, hmin⟩ => by
    rw [List.forall_mem_cons] at hmin
    rw [List.foldl_cons]
    by_cases hp : OnWay p s
    · -- `p` is `s`, and what follows is below it
      have hps : p = s := hp.2.eq_of_length_le (hmin.1 (hp.extend hs.2)).length_le
      subst hps
      refine foldl_rebase_based hbelow hmin.2 (fun p' hs' _ => ?_) hs.2
      rw [rebase_below ⟨hs.1, hs'⟩]
    · have hmem' : s ∈ ps := (List.mem_cons.mp hmem).resolve_left fun h => hp (h ▸ .refl hs.1)
      rw [foldl_rebase hbelow ⟨hmem', hs, hmin.2⟩, rebase_outside hp]

theorem ReadThrough.foldl_rebase (hbelow : ∀ w a b, below (below w a) b = below w (a ++ b)) (hnil : ∀ w, below w [] = w)
    {ps : List (List N)} {s q : List N} {v : List N → W} (h : ReadThrough ps s q) :
    ps.foldl (rebase below) v q = below (v s) (q.drop s.length) := by
  rcases h with hs | ⟨rfl, hnone⟩
  · exact Mounts.foldl_rebase hbelow hs
  · rw [foldl_rebase_none hnone, List.drop_length, hnil]

end Mounts
