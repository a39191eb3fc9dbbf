import DataServer.Go
import DataServer.Cache.Update
import DataServer.Tree.LeafVariants
import DataServer.Tree.Entry
import DataServer.Tree.Query
import DataServer.Tree.Deletes
import DataServer.Tree.WellFormed
import DataServer.Tree.Paths
import DataServer.Tree.Frame
import DataServer.Tree.OwnerDelta
import DataServer.Tree.Shadow
import DataServer.Tree.Restore
import DataServer.Datastore.RawIntent
import DataServer.Datastore.SetIntent
import DataServer.Datastore.StoreIndex
import DataServer.Tree.DeleteSafety
import DataServer.Tree.Canon
import DataServer.Tree.CanonRead
import DataServer.Tree.InsertOrder
import DataServer.Target.Netconf
import DataServer.Tree.Choice
import DataServer.Tree.AncestorSchema
import DataServer.Tree.Validate
import DataServer.Tree.Navigate
import DataServer.Utils.Srnges
import DataServer.Tree.XPath
import DataServer.Datastore.IntentStore
import DataServer.Target.Connection
import DataServer.Target.SyncBalance
import DataServer.Datastore.IntendedStore
import DataServer.Datastore.IntentMutex
