import SecureSudoers.FsRace
import SecureSudoers.ValidatedUnits
import SecureSudoers.RedactionSecrecy
import SecureSudoers.Lib.Mounts
import SecureSudoers.MountNamespace
import SecureSudoers.Isolation
import SecureSudoers.IsolationMasks
import SecureSudoers.Pinning
import SecureSudoers.Binding
import SecureSudoers.Main
import SecureSudoers.KernelPath
import SecureSudoers.PolicyValidation
import SecureSudoers.Tree
import SecureSudoers.Installer
import SecureSudoers.EntryPoint
import SecureSudoers.Logging
import SecureSudoers.Update
import SecureSudoers.NetworkUpdate
import SecureSudoers.Lib.Interleaving
import SecureSudoers.SudoersFile
import SecureSudoers.UpdateRace
import SecureSudoers.Install
import SecureSudoers.BlockedTraversal
import SecureSudoers.NormalForm
import SecureSudoers.Tightening
import SecureSudoers.Lib.Runs
import SecureSudoers.Supervisor
import SecureSudoers.KeysOnly
import SecureSudoers.RedactionOrder
import SecureSudoers.SeparateValues
import SecureSudoers.Slices
import SecureSudoers.Spellings
import SecureSudoers.Denials
import SecureSudoers.Descendants
import SecureSudoers.Startup
import SecureSudoers.Immutable
import SecureSudoers.StoredInstall
import SecureSudoers.Locked
import SecureSudoers.Unlock
import SecureSudoers.UpdateStorage
import SecureSudoers.CommandPrefix
import SecureSudoers.PinOrder
import SecureSudoers.Retraversal
import SecureSudoers.PolicyForm
import SecureSudoers.PathRules
import SecureSudoers.Backups
import SecureSudoers.UnlockScope
import SecureSudoers.Lib.Base64
import SecureSudoers.Pem
import SecureSudoers.KeyFiles
import SecureSudoers.Adoption
import SecureSudoers.Generations
import SecureSudoers.Capabilities
import SecureSudoers.Signing
import SecureSudoers.Environ
import SecureSudoers.ExitStatus
import SecureSudoers.KernelVersion
import SecureSudoers.Signals
import SecureSudoers.Start
import SecureSudoers.Check
import SecureSudoers.Lib.Observers
import SecureSudoers.PolicyReaders
import SecureSudoers.UpdateReaders
import SecureSudoers.MapOrder
import SecureSudoers.PolicyUrl
