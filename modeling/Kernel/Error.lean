import Kernel.Kapi.Commands
import Kernel.Storage.BlockCache.Basic

/-!
# The kernel-wide error type

An error carries the reason that its display begins with and the error that caused it.
-/

namespace Kernel

open Core Memory Storage

inductive RegistryError where
  | notFound (path : List Char)
  | unsupported
  | handlerAlreadyRegistered (name : List Char)
  | invalidPath
  deriving DecidableEq

inductive FsError where
  | badMetadata (message : String) (value : ℕ)
  | outOfBounds (value bound : ℕ) (message : String)
  deriving DecidableEq

inductive Error where
  | memory (reason : String) (source : MemoryError)
  | registry (reason : String) (source : RegistryError)
  | storage (reason : String) (source : StorageError)
  | fileSystem (reason : String) (source : FsError)
  | utf8 (reason : String)
  | inner (reason : String) (source : Error)
  | misc (reason : String) (code : Option Kapi.ErrorCode)
  | other (reason : String) (code : Option Kapi.ErrorCode)
  deriving DecidableEq

def Error.asCode : Error → Checked Kapi.ErrorCode
  | .memory _ .outOfMemory => pure .outOfMemory
  | .memory _ (.insufficentForAllocation _) => pure .outOfMemory
  | .memory _ (.map .invalidTag) => pure .invalidPointer
  | .memory _ (.map (.copyFromUnmapped _ _)) => pure .invalidPointer
  | .memory _ _ => pure .internal
  | .registry _ (.notFound _) => pure .notFound
  | .registry _ .unsupported => pure .unsupportedOperation
  | .registry _ .invalidPath => pure .badFormat
  | .registry _ (.handlerAlreadyRegistered _) => pure .internal
  | .storage _ (.badVector _ _) => pure .badFormat
  | .storage _ (.deviceError _) => pure .device
  | .storage _ (.memoryError _) => .error .todo
  | .fileSystem _ (.outOfBounds _ _ _) => pure .outOfBounds
  | .fileSystem _ _ => pure .internal
  | .utf8 _ => pure .invalidUtf8
  | .misc _ (some code) => pure code
  | .other _ (some code) => pure code
  | .inner _ source => source.asCode
  | .misc _ none => pure .internal
  | .other _ none => pure .internal

inductive Failure where
  | panic (reason : Panic)
  | error (e : Error)
  deriving DecidableEq

end Kernel
