import MeetupApp.Framework.Runs
import MeetupApp.Framework.FrontSale
import MeetupApp.Framework.Carousel
import MeetupApp.Framework.Collecting
import MeetupApp.Firebase.Database
import MeetupApp.Models.Event
import MeetupApp.Models.CodigoQR
import MeetupApp.DataBase.Firebase
import MeetupApp.Controllers.Events
import MeetupApp.Controllers.EventDescription
import MeetupApp.Controllers.Tickets
import MeetupApp.Controllers.QR
import MeetupApp.Controllers.SignUp
import MeetupApp.Controllers.LogIn
import MeetupApp.Purchase.Interleaving
import MeetupApp.Purchase.Integrity
import MeetupApp.Purchase.DoubleSale
import MeetupApp.Purchase.Serial
import MeetupApp.Purchase.Effect
import MeetupApp.Purchase.Conservation
import MeetupApp.Purchase.SoldOut
import MeetupApp.Purchase.Atomicity
import MeetupApp.Purchase.Independence
import MeetupApp.Purchase.Fidelity
import MeetupApp.Events.MainQueue
import MeetupApp.Events.Usable
import MeetupApp.QR.Browsing
import MeetupApp.QR.Presentation
import MeetupApp.Codes.Generation
import MeetupApp.SignUp.Interleaving
import MeetupApp.SignUp.Attempts
import MeetupApp.SignUp.OwnProfile
import MeetupApp.Forms.Completeness
import MeetupApp.Tickets.Session
import MeetupApp.Firebase.AppliedWrites
import MeetupApp.Firebase.ChildChanges
import MeetupApp.Firebase.DictionaryRuns
import MeetupApp.Firebase.IntegerKeys
import MeetupApp.Firebase.LocalView
import MeetupApp.Firebase.ShownNode
import MeetupApp.Firebase.Snapshot
import MeetupApp.Firebase.StoredRecords
import MeetupApp.Firebase.ViewConsistency
import MeetupApp.Purchase.ClientView
import MeetupApp.QR.Everybody
import MeetupApp.Firebase.View
import MeetupApp.Firebase.SyncTree
